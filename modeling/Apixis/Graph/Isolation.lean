import Apixis.Graph.CopyState
import Apixis.Library.Regions

/-! Who can change what. Callers, nodes and attempts reach only the objects they have
been given or have made; a graph hands state over by copying it, into attempts, into
nodes, into checkpoints and back to callers. Checkpoints are never handed over
themselves. -/
namespace Apixis.Isolation
open Heap CopyState

variable {K A : Type}

/- `owner` is who works on the attempt: the graph, and the code of its values that the
graph runs to merge updates. -/
structure Context (A : Type) where
  owner : Nat
  state : Value A
  history : List (Value A)
  deriving DecidableEq, Repr

structure World (K A : Type) where
  objects : Objects K A
  held : List (List (Value A))
  contexts : List (Context A)
  deriving DecidableEq, Repr

def initial : World K A := ⟨[],[],[]⟩

inductive Action (K A : Type) where
  | join
  /- `i` takes what slot `k` of the object at `p` holds. -/
  | read (i p k : Nat)
  | create (i : Nat) (o : Object (Label K) A)
  | change (i p : Nat) (o : Object (Label K) A)
  | createContext (i : Nat) (state : Value A)
  | restoreContext (i : Nat) (history : List (Value A))
  | restoreVersion (c n : Nat)
  | takeSnapshot (c : Nat)
  | getSnapshot (c k i : Nat)
  | startNode (c : Nat)
  /- A node's update, on its way into the state. -/
  | update (c i : Nat) (command : Value A)
  /- The results that `_invoke` copies for its caller. -/
  | returnState (c i : Nat)
  | returnSnapshot (c i : Nat)

def World.holds [DecidableEq A] (w : World K A) (i : Nat) : Value A → Bool
  | .atom _ => true
  | .ref p => match w.held[i]? with
      | some l => l.contains (.ref p)
      | none => false

def World.give (w : World K A) (i : Nat) (v : Value A) : World K A :=
  {w with held := w.held.modify i (fun l => v :: l)}

def World.enter (w : World K A) (l : List (Value A)) : World K A := {w with held := w.held ++ [l]}

def World.attempt (w : World K A) (state : Value A) (history : List (Value A)) : World K A :=
  {w.enter [state] with contexts := w.contexts ++ [⟨w.held.length,state,history⟩]}

def World.keep (w : World K A) (c : Nat) (v : Value A) : World K A :=
  {w with contexts := w.contexts.modify c (fun x => {x with history := x.history ++ [v]})}

section Step
variable (mayCopy : K → Bool) (keepRefKeys : List String)

/- A copy that raises leaves everything as it is. -/
def World.copying (w : World K A) (v : Value A) (next : World K A → Value A → World K A) : World K A :=
  match copyState mayCopy keepRefKeys w.objects v with
  | .ok (copy,objects) => next {w with objects := objects} copy
  | .error _ => w

def World.deepcopying (w : World K A) (v : Value A) (next : World K A → Value A → World K A) : World K A :=
  match deepcopy (copyable mayCopy) w.objects v with
  | some (copy,objects) => next {w with objects := objects} copy
  | none => w

/- The history is copied together, the state apart from it. -/
def World.restore (w : World K A) (history : List (Value A)) : World K A :=
  match deepcopyAll (copyable mayCopy) w.objects history with
  | some (restored,objects) => match restored.getLast? with
      | some last =>
          match deepcopy (copyable mayCopy) objects last with
          | some (state,objects') => {w with objects := objects'}.attempt state restored
          | none => w
      | none => w
  | none => w

def step [DecidableEq A] (w : World K A) : Action K A → Option (World K A)
  | .join => some (w.enter [])
  | .read i p k => if w.holds i (.ref p) then do
      let o ← w.objects[p]?
      let v ← o.slots[k]?
      some (w.give i v)
    else none
  | .create i o => if i < w.held.length && o.slots.all (w.holds i) then
      some ({w with objects := w.objects ++ [o]}.give i (.ref w.objects.length))
    else none
  | .change i p o => if w.holds i (.ref p) && o.slots.all (w.holds i) then
      some {w with objects := w.objects.set p o}
    else none
  | .createContext i state => if w.holds i state then
      some (w.copying mayCopy keepRefKeys state (fun w copy => w.attempt copy []))
    else none
  | .restoreContext i history => if history.all (w.holds i) then some (w.restore mayCopy history) else none
  | .restoreVersion c n => do
      let x ← w.contexts[c]?
      if n < x.history.length then some (w.restore mayCopy (x.history.take (n + 1))) else none
  | .takeSnapshot c => do
      let x ← w.contexts[c]?
      some (w.deepcopying mayCopy x.state (fun w copy => w.keep c copy))
  | .getSnapshot c k i => do
      let x ← w.contexts[c]?
      let v ← x.history[k]?
      some (w.deepcopying mayCopy v (fun w copy => w.give i copy))
  | .startNode c => do
      let x ← w.contexts[c]?
      some (w.copying mayCopy keepRefKeys x.state (fun w copy => w.enter [copy]))
  | .update c i command => do
      let x ← w.contexts[c]?
      if w.holds i command then
        some (w.copying mayCopy keepRefKeys command (fun w copy => w.give x.owner copy))
      else none
  | .returnState c i => do
      let x ← w.contexts[c]?
      some (w.copying mayCopy keepRefKeys x.state (fun w copy => w.give i copy))
  | .returnSnapshot c i => do
      let x ← w.contexts[c]?
      let v ← x.history.getLast?
      some (w.deepcopying mayCopy v (fun w copy => w.give i copy))

end Step

/- Where everybody works: apart from each other, or all in one place once some keys
keep their reference. Nobody works where the checkpoints are. -/
def place (keepRefKeys : List String) (i : Nat) : Option Nat :=
  if keepRefKeys = [] then some i else some 0

/- A checkpoint: apart from everybody, and fit to be copied once more. -/
def Filed (mayCopy : K → Bool) (h : Objects K A) (region : Nat → Option Nat) (v : Value A) : Prop :=
  Lies h region none v ∧ Copyable (copyable mayCopy) h v

structure Apart (mayCopy : K → Bool) (keepRefKeys : List String) (w : World K A) (region : Nat → Option Nat) :
    Prop where
  layout : Layout w.objects region
  held : ∀ i l, w.held[i]? = some l → ∀ v ∈ l, Lies w.objects region (place keepRefKeys i) v
  contexts : ∀ x ∈ w.contexts, Lies w.objects region (place keepRefKeys x.owner) x.state ∧
    ∀ v ∈ x.history, Filed mayCopy w.objects region v

section Apart
variable {mayCopy : K → Bool} {keepRefKeys : List String} {w t : World K A} {region region' : Nat → Option Nat}
  {h objects : Objects K A} {v copy : Value A} {i : Nat} {r s : Option Nat}

theorem filedAgree (layout : Layout h region) (filed : Filed mayCopy h region v)
    (lies : Lies objects region' none v) (same : ∀ p < h.length, region p = none → objects[p]? = h[p]?) :
    Filed mayCopy objects region' v := by
  refine ⟨lies,copyableAgree (fun p reached => ?_) filed.2⟩
  obtain ⟨inside,own⟩ := liesReach layout filed.1 reached
  exact same p inside own

theorem filedGrown (layout : Layout h region) (grown : Grown h objects region region')
    (filed : Filed mayCopy h region v) : Filed mayCopy objects region' v :=
  filedAgree layout filed (liesGrown grown filed.1) (fun _ inside _ => frontSame grown.front inside)

theorem apartGrown (apart : Apart mayCopy keepRefKeys w region) (grown : Grown w.objects objects region region') :
    Apart mayCopy keepRefKeys {w with objects := objects} region' :=
  ⟨grown.layout,fun i l found v member => liesGrown grown (apart.held i l found v member),
    fun x member => ⟨liesGrown grown (apart.contexts x member).1,
      fun v inside => filedGrown apart.layout grown ((apart.contexts x member).2 v inside)⟩⟩

theorem apartGive (apart : Apart mayCopy keepRefKeys w region) (lies : Lies w.objects region (place keepRefKeys i) v) :
    Apart mayCopy keepRefKeys (w.give i v) region := by
  refine ⟨apart.layout,?_,apart.contexts⟩
  intro j l found x member
  simp only [World.give,List.getElem?_modify] at found
  cases there : w.held[j]? with
  | none => simp [there] at found
  | some own =>
    rw [there] at found
    by_cases same : i = j
    · subst same
      simp only [if_true,Option.map_eq_map,Option.map_some,Option.some.injEq] at found
      subst found
      rcases List.mem_cons.mp member with rfl | old
      · exact lies
      · exact apart.held i own there x old
    · simp only [same,if_false,Option.map_eq_map,Option.map_some,Option.some.injEq] at found
      subst found
      exact apart.held j own there x member

theorem apartEnter {l : List (Value A)} (apart : Apart mayCopy keepRefKeys w region)
    (lies : ∀ v ∈ l, Lies w.objects region (place keepRefKeys w.held.length) v) :
    Apart mayCopy keepRefKeys (w.enter l) region := by
  refine ⟨apart.layout,?_,apart.contexts⟩
  intro i own found v member
  simp only [World.enter,List.getElem?_append] at found
  split at found
  · exact apart.held i own found v member
  · rename_i late
    have last := Slots.inside found
    simp only [List.length_singleton] at last
    obtain rfl : i = w.held.length := by omega
    simp only [Nat.sub_self,List.getElem?_cons_zero,Option.some.injEq] at found
    subst found
    exact lies v member

theorem apartAttempt {history : List (Value A)} (apart : Apart mayCopy keepRefKeys w region)
    (state : Lies w.objects region (place keepRefKeys w.held.length) v)
    (checkpoints : ∀ x ∈ history, Filed mayCopy w.objects region x) : Apart mayCopy keepRefKeys (w.attempt v history) region := by
  have entered : Apart mayCopy keepRefKeys (w.enter [v]) region :=
    apartEnter apart (fun x member => List.mem_singleton.mp member ▸ state)
  refine ⟨entered.layout,entered.held,?_⟩
  intro x member
  rcases List.mem_append.mp member with old | new
  · exact apart.contexts x old
  · cases List.mem_singleton.mp new
    exact ⟨state,checkpoints⟩

theorem apartKeep {c : Nat} (apart : Apart mayCopy keepRefKeys w region) (filed : Filed mayCopy w.objects region v) :
    Apart mayCopy keepRefKeys (w.keep c v) region := by
  refine ⟨apart.layout,apart.held,?_⟩
  intro x member
  obtain ⟨k,found⟩ := List.getElem?_of_mem member
  simp only [World.keep,List.getElem?_modify] at found
  cases there : w.contexts[k]? with
  | none => simp [there] at found
  | some own =>
    rw [there] at found
    obtain ⟨state,checkpoints⟩ := apart.contexts own (List.mem_of_getElem? there)
    by_cases same : c = k
    · simp only [same,if_true,Option.map_eq_map,Option.map_some,Option.some.injEq] at found
      subst found
      refine ⟨state,?_⟩
      intro y inside
      rcases List.mem_append.mp inside with old | new
      · exact checkpoints y old
      · cases List.mem_singleton.mp new
        exact filed
    · simp only [same,if_false,Option.map_eq_map,Option.map_some,Option.some.injEq] at found
      subst found
      exact ⟨state,checkpoints⟩

theorem grownCopyState (layout : Layout h region) (lies : Lies h region r v)
    (room : keepRefKeys = [] ∨ s = r)
    (done : copyState mayCopy keepRefKeys h v = .ok (copy,objects)) :
    ∃ region', Grown h objects region region' ∧ Lies objects region' s copy := by
  unfold copyState at done
  split at done
  · cases done
  · rename_i entries found
    split at done
    · obtain ⟨m,duplicate⟩ := deepcopySpec (copyOrRaiseOk.mp done)
      obtain ⟨region',grown,copies⟩ := grownCopies duplicate layout s
      exact ⟨region',grown,copies copy (List.mem_singleton.mpr rfl)⟩
    · rename_i some_
      obtain rfl : s = r := room.resolve_left (fun none_ => some_ (List.isEmpty_iff.mpr none_))
      obtain ⟨p,keys,slots,rfl,dict,rfl⟩ := dictAtSome found
      simp only [PyError.bindOk] at done
      obtain ⟨⟨copied,middle⟩,first,fields,put,last⟩ := done
      cases last
      have own : ∀ e ∈ keys.zip slots, Lies h region s e.2 := by
        intro e member
        have lie := layout p _ dict e.2 (List.of_mem_zip member).2
        rwa [(lies p rfl).2] at lie
      have held : ∀ x ∈ (makeDict (K := K) (others keepRefKeys (keys.zip slots))).slots, Lies h region s x := by
        intro x member
        obtain ⟨e,inside,rfl⟩ := List.mem_map.mp member
        exact own e (List.mem_of_mem_filter inside)
      obtain ⟨region1,temporary,_⟩ := grownAlloc layout held
      obtain ⟨m,duplicate⟩ := deepcopySpec (copyOrRaiseOk.mp first)
      obtain ⟨region2,copies,lie⟩ := grownCopies duplicate temporary.layout s
      have both := grownTrans temporary copies
      -- what was copied lies where the copy does
      have new : ∀ e ∈ (dictAt middle copied).getD [], Lies middle region2 s e.2 := by
        intro e member
        cases there : dictAt middle copied with
        | none => simp [there] at member
        | some entries' =>
          obtain ⟨q,keys',slots',rfl,dict',rfl⟩ := dictAtSome there
          rw [there,Option.getD_some] at member
          have deep := copies.layout q _ dict' e.2 (List.of_mem_zip member).2
          rwa [(lie _ (List.mem_singleton.mpr rfl) q rfl).2] at deep
      have result : ∀ x ∈ (makeDict (K := K) fields).slots, Lies middle region2 s x := by
        intro x member
        obtain ⟨f,inside,rfl⟩ := List.mem_map.mp member
        rcases rebuiltFrom put f inside with ⟨e,before,same⟩ | ⟨e,after,same⟩
        · rw [same]
          exact liesGrown both (own e before)
        · rw [same]
          exact new e after
      obtain ⟨region3,last,lies'⟩ := grownAlloc copies.layout result
      exact ⟨region3,grownTrans both last,lies'⟩

/- One stretch of copying: everybody is still apart, and what there was is as it was. -/
def Copied (mayCopy : K → Bool) (keepRefKeys : List String) (w t : World K A) (region : Nat → Option Nat) : Prop :=
  ∃ region', Apart mayCopy keepRefKeys t region' ∧ Grown w.objects t.objects region region'

theorem placeSome : place keepRefKeys i ≠ none := by
  unfold place
  split <;> simp

theorem placeRoom (i j : Nat) : keepRefKeys = [] ∨ place keepRefKeys i = place keepRefKeys j := by
  by_cases none_ : keepRefKeys = []
  · exact .inl none_
  · exact .inr (by simp only [place,none_,if_false])

section Next
variable {next : World K A → Value A → World K A} (apart : Apart mayCopy keepRefKeys w region)
  (keeps : ∀ w v, (next w v).objects = w.objects)
include apart keeps

theorem copyingApart (lies : Lies w.objects region r v) (room : keepRefKeys = [] ∨ s = r)
    (after : ∀ objects region' copy, Lies objects region' s copy →
      Apart mayCopy keepRefKeys {w with objects := objects} region' →
      Apart mayCopy keepRefKeys (next {w with objects := objects} copy) region') :
    Copied mayCopy keepRefKeys w (w.copying mayCopy keepRefKeys v next) region := by
  unfold World.copying
  split
  · rename_i copy objects done
    obtain ⟨region',grown,lie⟩ := grownCopyState apart.layout lies room done
    exact ⟨region',after _ _ _ lie (apartGrown apart grown),by rw [keeps]; exact grown⟩
  · exact ⟨region,apart,grownRefl apart.layout⟩

theorem deepcopyingApart
    (after : ∀ objects region' copy, Lies objects region' s copy → Copyable (copyable mayCopy) objects copy →
      Apart mayCopy keepRefKeys {w with objects := objects} region' →
      Apart mayCopy keepRefKeys (next {w with objects := objects} copy) region') :
    Copied mayCopy keepRefKeys w (w.deepcopying mayCopy v next) region := by
  unfold World.deepcopying
  split
  · rename_i copy objects done
    obtain ⟨region',grown,lie,again,_⟩ := grownDeepcopy apart.layout s done
    exact ⟨region',after _ _ _ lie again (apartGrown apart grown),by rw [keeps]; exact grown⟩
  · exact ⟨region,apart,grownRefl apart.layout⟩

end Next

theorem restoreApart {history : List (Value A)} (apart : Apart mayCopy keepRefKeys w region) :
    Copied mayCopy keepRefKeys w (w.restore mayCopy history) region := by
  have still : Copied mayCopy keepRefKeys w w region := ⟨region,apart,grownRefl apart.layout⟩
  unfold World.restore
  split
  · rename_i restored objects done
    split
    · rename_i last found
      split
      · rename_i state objects' done'
        obtain ⟨region1,first,checkpoints,_⟩ := grownDeepcopyAll apart.layout none done
        obtain ⟨region2,second,lie,_⟩ := grownDeepcopy first.layout (place keepRefKeys w.held.length) done'
        have both := grownTrans first second
        refine ⟨region2,apartAttempt (apartGrown apart both) lie ?_,both⟩
        exact fun x member => filedGrown first.layout second (checkpoints x member)
      · exact still
    · exact still
  · exact still

theorem restored {history : List (Value A)} (apart : Apart mayCopy keepRefKeys w region)
    (filed : ∀ x ∈ history, Filed mayCopy w.objects region x) (last : history.getLast? = some v) :
    ∃ objects state copies, w.restore mayCopy history = {w with objects := objects}.attempt state copies ∧
      copies.length = history.length ∧ ∀ n, view objects n state = view w.objects n v := by
  obtain ⟨copies,objects,done⟩ := deepcopyAllIff.mpr (fun x member => (filed x member).2)
  obtain ⟨region1,first,checkpoints,alike⟩ := grownDeepcopyAll apart.layout (none : Option Nat) done
  obtain ⟨y,found,shows⟩ : ∃ y, copies.getLast? = some y ∧ ∀ n, view objects n y = view w.objects n v := by
    rw [List.getLast?_eq_getElem?] at last ⊢
    obtain ⟨y,there,same⟩ := forallAt alike last
    exact ⟨y,by rw [← alike.length_eq]; exact there,same⟩
  have own := checkpoints y (List.mem_of_getLast? found)
  obtain ⟨state,objects',done'⟩ := deepcopyIff.mpr own.2
  obtain ⟨_,_,_,_,again⟩ := grownDeepcopy first.layout (none : Option Nat) done'
  refine ⟨objects',state,copies,?_,alike.length_eq.symm,fun n => (again n).trans (shows n)⟩
  simp only [World.restore,done,found,done']

theorem startApart : Apart mayCopy keepRefKeys (initial : World K A) (fun _ => none) :=
  ⟨fun p o found => by simp [initial] at found,fun i l found => by simp [initial] at found,
    fun x member => by simp [initial] at member⟩

variable [DecidableEq A]

theorem holdsLies (apart : Apart mayCopy keepRefKeys w region) (holds : w.holds i v = true) :
    Lies w.objects region (place keepRefKeys i) v := by
  cases v with
  | atom a => exact liesAtom
  | ref p =>
    simp only [World.holds] at holds
    split at holds
    · rename_i l found
      exact apart.held i l found _ (List.contains_iff_mem.mp holds)
    · cases holds

/- What one step does: everybody stays apart, and an object is changed only by
somebody who works where it is. -/
theorem stepApart {a : Action K A} (apart : Apart mayCopy keepRefKeys w region)
    (taken : step mayCopy keepRefKeys w a = some t) :
    ∃ region', Apart mayCopy keepRefKeys t region' ∧ (∀ p < w.objects.length, region' p = region p) ∧
      ∀ p < w.objects.length, t.objects[p]? = w.objects[p]? ∨
        ∃ i o, a = .change i p o ∧ region p = place keepRefKeys i := by
  have copied : Copied mayCopy keepRefKeys w t region → ∃ region', Apart mayCopy keepRefKeys t region' ∧
      (∀ p < w.objects.length, region' p = region p) ∧
      ∀ p < w.objects.length, t.objects[p]? = w.objects[p]? ∨
        ∃ i o, a = .change i p o ∧ region p = place keepRefKeys i := by
    rintro ⟨region',next,grown⟩
    exact ⟨region',next,grown.same,fun p inside => .inl (frontSame grown.front inside)⟩
  cases a with
  | join =>
    cases Option.some.inj taken
    exact copied ⟨region,apartEnter apart (by simp),grownRefl apart.layout⟩
  | read i p k =>
    simp only [step] at taken
    split at taken <;> try contradiction
    rename_i holds
    simp only [Option.bind_eq_bind,Option.bind_eq_some_iff] at taken
    obtain ⟨o,found,v,slot,last⟩ := taken
    cases Option.some.inj last
    have own := holdsLies apart holds p rfl
    have lies := apart.layout p o found v (List.mem_of_getElem? slot)
    rw [own.2] at lies
    exact copied ⟨region,apartGive apart lies,grownRefl apart.layout⟩
  | create i o =>
    simp only [step] at taken
    split at taken <;> try contradiction
    rename_i may
    obtain ⟨_,all⟩ := Bool.and_eq_true_iff.mp may
    cases Option.some.inj taken
    obtain ⟨region',grown,lies⟩ := grownAlloc apart.layout (r := place keepRefKeys i) (o := o)
      (fun v member => holdsLies apart (List.all_eq_true.mp all v member))
    exact copied ⟨region',apartGive (apartGrown apart grown) lies,grown⟩
  | change i p o =>
    simp only [step] at taken
    split at taken <;> try contradiction
    rename_i may
    obtain ⟨holds,all⟩ := Bool.and_eq_true_iff.mp may
    cases Option.some.inj taken
    have own := holdsLies apart holds p rfl
    have layout := layoutSet apart.layout own.2 (o := o) (fun v member => holdsLies apart (List.all_eq_true.mp all v member))
    refine ⟨region,⟨layout,?_,?_⟩,fun _ _ => rfl,?_⟩
    · exact fun j l found v member => liesSet (apart.held j l found v member)
    · intro x member
      refine ⟨liesSet (apart.contexts x member).1,fun v inside => ?_⟩
      have filed := (apart.contexts x member).2 v inside
      refine filedAgree apart.layout filed (liesSet filed.1) ?_
      intro q _ away
      refine List.getElem?_set_ne ?_
      rintro rfl
      exact placeSome (own.2.symm.trans away)
    · intro q inside
      by_cases same : q = p
      · subst same
        exact .inr ⟨i,o,rfl,own.2⟩
      · exact .inl (List.getElem?_set_ne (Ne.symm same))
  | createContext i state =>
    simp only [step] at taken
    split at taken <;> try contradiction
    rename_i holds
    cases Option.some.inj taken
    refine copied (copyingApart apart (fun _ _ => rfl) (holdsLies apart holds)
      (placeRoom w.held.length i) ?_)
    exact fun objects region' copy lies next => apartAttempt next lies (by simp)
  | restoreContext i history =>
    simp only [step] at taken
    split at taken <;> try contradiction
    cases Option.some.inj taken
    exact copied (restoreApart apart)
  | restoreVersion c n =>
    simp only [step,Option.bind_eq_bind,Option.bind_eq_some_iff] at taken
    obtain ⟨x,found,taken⟩ := taken
    split at taken <;> try contradiction
    cases Option.some.inj taken
    exact copied (restoreApart apart)
  | takeSnapshot c =>
    simp only [step,Option.bind_eq_bind,Option.bind_eq_some_iff] at taken
    obtain ⟨x,found,taken⟩ := taken
    cases Option.some.inj taken
    refine copied (deepcopyingApart (s := none) apart (fun _ _ => rfl) ?_)
    exact fun objects region' copy lies again next => apartKeep next ⟨lies,again⟩
  | getSnapshot c k i =>
    simp only [step,Option.bind_eq_bind,Option.bind_eq_some_iff] at taken
    obtain ⟨x,found,v,there,taken⟩ := taken
    cases Option.some.inj taken
    refine copied (deepcopyingApart (s := place keepRefKeys i) apart (fun _ _ => rfl) ?_)
    exact fun objects region' copy lies _ next => apartGive next lies
  | startNode c =>
    simp only [step,Option.bind_eq_bind,Option.bind_eq_some_iff] at taken
    obtain ⟨x,found,taken⟩ := taken
    cases Option.some.inj taken
    refine copied (copyingApart apart (fun _ _ => rfl) (apart.contexts x (List.mem_of_getElem? found)).1
      (placeRoom w.held.length x.owner) ?_)
    intro objects region' copy lies next
    exact apartEnter next (fun v member => List.mem_singleton.mp member ▸ lies)
  | update c i command =>
    simp only [step,Option.bind_eq_bind,Option.bind_eq_some_iff] at taken
    obtain ⟨x,found,taken⟩ := taken
    split at taken <;> try contradiction
    rename_i holds
    cases Option.some.inj taken
    refine copied (copyingApart apart (fun _ _ => rfl) (holdsLies apart holds)
      (placeRoom x.owner i) ?_)
    exact fun objects region' copy lies next => apartGive next lies
  | returnState c i =>
    simp only [step,Option.bind_eq_bind,Option.bind_eq_some_iff] at taken
    obtain ⟨x,found,taken⟩ := taken
    cases Option.some.inj taken
    refine copied (copyingApart apart (fun _ _ => rfl) (apart.contexts x (List.mem_of_getElem? found)).1
      (placeRoom i x.owner) ?_)
    exact fun objects region' copy lies next => apartGive next lies
  | returnSnapshot c i =>
    simp only [step,Option.bind_eq_bind,Option.bind_eq_some_iff] at taken
    obtain ⟨x,found,v,there,taken⟩ := taken
    cases Option.some.inj taken
    refine copied (deepcopyingApart (s := place keepRefKeys i) apart (fun _ _ => rfl) ?_)
    exact fun objects region' copy lies _ next => apartGive next lies

theorem untouched {acts : List (Action K A)} {S : Nat → Prop} (apart : Apart mayCopy keepRefKeys w region)
    (inside : ∀ p, S p → p < w.objects.length ∧ region p = r)
    (quiet : ∀ a ∈ acts, ∀ i p o, a = .change i p o → place keepRefKeys i ≠ r)
    (ran : Machine.run (step mayCopy keepRefKeys) w acts = some t) :
    ∃ region', Apart mayCopy keepRefKeys t region' ∧ ∀ p, S p → region' p = r ∧ t.objects[p]? = w.objects[p]? := by
  refine Machine.invariantWhere (P := fun m => ∃ region', Apart mayCopy keepRefKeys m region' ∧
    ∀ p, S p → region' p = r ∧ m.objects[p]? = w.objects[p]?) ?_ quiet
    ⟨region,apart,fun p member => ⟨(inside p member).2,rfl⟩⟩ ran
  rintro m a n quiet ⟨region1,now,same⟩ taken
  obtain ⟨region2,next,kept,changed⟩ := stepApart now taken
  refine ⟨region2,next,?_⟩
  intro p member
  obtain ⟨own,before⟩ := same p member
  have there : p < m.objects.length := by
    rw [List.getElem?_eq_getElem (inside p member).1] at before
    exact Slots.inside before
  refine ⟨(kept p there).trans own,?_⟩
  rcases changed p there with still | ⟨i,o,rfl,where_⟩
  · exact still.trans before
  · exact absurd (where_.symm.trans own) (quiet i p o rfl)

theorem runApart {acts : List (Action K A)} (apart : Apart mayCopy keepRefKeys w region)
    (ran : Machine.run (step mayCopy keepRefKeys) w acts = some t) : ∃ region', Apart mayCopy keepRefKeys t region' := by
  refine Machine.invariant (P := fun m => ∃ region', Apart mayCopy keepRefKeys m region') ?_ ⟨region,apart⟩ ran
  rintro m a n ⟨region1,now⟩ taken
  obtain ⟨region2,next,_⟩ := stepApart now taken
  exact ⟨region2,next⟩

theorem quietView {acts : List (Action K A)} (apart : Apart mayCopy keepRefKeys w region) (lies : Lies w.objects region r v)
    (quiet : ∀ a ∈ acts, ∀ i p o, a = .change i p o → place keepRefKeys i ≠ r)
    (ran : Machine.run (step mayCopy keepRefKeys) w acts = some t) (n : Nat) :
    view t.objects n v = view w.objects n v := by
  obtain ⟨_,_,same⟩ := untouched (S := Reach w.objects v) apart
    (fun p reached => liesReach apart.layout lies reached) quiet ran
  exact viewAgree (fun p reached => (same p reached).2)

end Apart

section Histories
variable {mayCopy : K → Bool} {keepRefKeys : List String} {w t : World K A} {c i k : Nat} {x : Context A}
  {v : Value A} {acts : List (Action K A)}

/- An attempt goes on with the same state object and owner, and only adds checkpoints. -/
def Continues (x y : Context A) : Prop := y.owner = x.owner ∧ y.state = x.state ∧ x.history <+: y.history

theorem continuesTrans {y z : Context A} (first : Continues x y) (second : Continues y z) : Continues x z :=
  ⟨second.1.trans first.1,second.2.1.trans first.2.1,first.2.2.trans second.2.2⟩

def Onward (w t : World K A) : Prop :=
  ∀ (c : Nat) x, w.contexts[c]? = some x → ∃ y, t.contexts[c]? = some y ∧ Continues x y

theorem onwardSame (same : t.contexts = w.contexts) : Onward w t := by
  intro c x found
  exact ⟨x,by rw [same]; exact found,rfl,rfl,List.prefix_refl _⟩

theorem onwardAttempt {state : Value A} {history : List (Value A)} (same : w.contexts = t.contexts) :
    Onward t (w.attempt state history) := by
  intro c x found
  refine ⟨x,?_,rfl,rfl,List.prefix_refl _⟩
  simp only [World.attempt]
  rw [List.getElem?_append_left (by rw [same]; exact Slots.inside found),same]
  exact found

theorem onwardKeep (same : w.contexts = t.contexts) : Onward t (w.keep c v) := by
  intro k x found
  by_cases here : c = k
  · refine ⟨{x with history := x.history ++ [v]},?_,rfl,rfl,List.prefix_append _ _⟩
    simp only [World.keep,List.getElem?_modify,same,found,here,if_true]
    rfl
  · refine ⟨x,?_,rfl,rfl,List.prefix_refl _⟩
    simp only [World.keep,List.getElem?_modify,same,found,here,if_false]
    rfl

theorem onwardCopying {next : World K A → Value A → World K A}
    (onward : ∀ m copy, m.contexts = w.contexts → Onward w (next m copy)) :
    Onward w (w.copying mayCopy keepRefKeys v next) := by
  unfold World.copying
  split
  · exact onward _ _ rfl
  · exact onwardSame rfl

theorem onwardDeepcopying {next : World K A → Value A → World K A}
    (onward : ∀ m copy, m.contexts = w.contexts → Onward w (next m copy)) :
    Onward w (w.deepcopying mayCopy v next) := by
  unfold World.deepcopying
  split
  · exact onward _ _ rfl
  · exact onwardSame rfl

theorem onwardRestore {history : List (Value A)} : Onward w (w.restore mayCopy history) := by
  unfold World.restore
  repeat' split
  all_goals first | exact onwardSame rfl | exact onwardAttempt rfl

variable [DecidableEq A]

theorem stepOnward {a : Action K A} (taken : step mayCopy keepRefKeys w a = some t) : Onward w t := by
  cases a with
  | join =>
    cases Option.some.inj taken
    exact onwardSame rfl
  | read i p k =>
    simp only [step] at taken
    split at taken <;> try contradiction
    simp only [Option.bind_eq_bind,Option.bind_eq_some_iff] at taken
    obtain ⟨o,_,v,_,last⟩ := taken
    cases Option.some.inj last
    exact onwardSame rfl
  | create i o =>
    simp only [step] at taken
    split at taken <;> try contradiction
    cases Option.some.inj taken
    exact onwardSame rfl
  | change i p o =>
    simp only [step] at taken
    split at taken <;> try contradiction
    cases Option.some.inj taken
    exact onwardSame rfl
  | createContext i state =>
    simp only [step] at taken
    split at taken <;> try contradiction
    cases Option.some.inj taken
    exact onwardCopying (fun m copy same => onwardAttempt same)
  | restoreContext i history =>
    simp only [step] at taken
    split at taken <;> try contradiction
    cases Option.some.inj taken
    exact onwardRestore
  | restoreVersion c n =>
    simp only [step,Option.bind_eq_bind,Option.bind_eq_some_iff] at taken
    obtain ⟨x,_,taken⟩ := taken
    split at taken <;> try contradiction
    cases Option.some.inj taken
    exact onwardRestore
  | takeSnapshot c =>
    simp only [step,Option.bind_eq_bind,Option.bind_eq_some_iff] at taken
    obtain ⟨x,_,taken⟩ := taken
    cases Option.some.inj taken
    exact onwardDeepcopying (fun m copy same => onwardKeep same)
  | getSnapshot c k i =>
    simp only [step,Option.bind_eq_bind,Option.bind_eq_some_iff] at taken
    obtain ⟨x,_,v,_,taken⟩ := taken
    cases Option.some.inj taken
    exact onwardDeepcopying (fun m copy same => onwardSame same)
  | startNode c =>
    simp only [step,Option.bind_eq_bind,Option.bind_eq_some_iff] at taken
    obtain ⟨x,_,taken⟩ := taken
    cases Option.some.inj taken
    exact onwardCopying (fun m copy same => onwardSame same)
  | update c i command =>
    simp only [step,Option.bind_eq_bind,Option.bind_eq_some_iff] at taken
    obtain ⟨x,_,taken⟩ := taken
    split at taken <;> try contradiction
    cases Option.some.inj taken
    exact onwardCopying (fun m copy same => onwardSame same)
  | returnState c i =>
    simp only [step,Option.bind_eq_bind,Option.bind_eq_some_iff] at taken
    obtain ⟨x,_,taken⟩ := taken
    cases Option.some.inj taken
    exact onwardCopying (fun m copy same => onwardSame same)
  | returnSnapshot c i =>
    simp only [step,Option.bind_eq_bind,Option.bind_eq_some_iff] at taken
    obtain ⟨x,_,v,_,taken⟩ := taken
    cases Option.some.inj taken
    exact onwardDeepcopying (fun m copy same => onwardSame same)

theorem runOnward (ran : Machine.run (step mayCopy keepRefKeys) w acts = some t) : Onward w t := by
  refine Machine.invariant (P := fun m => Onward w m) ?_ (onwardSame rfl) ran
  intro m a n before taken c x found
  obtain ⟨y,there,first⟩ := before c x found
  obtain ⟨z,now,second⟩ := stepOnward taken c y there
  exact ⟨z,now,continuesTrans first second⟩

/- A checkpoint stays where it is and shows what it has shown, whatever anybody does. -/
theorem checkpointKept {before : List (Action K A)}
    (started : Machine.run (step mayCopy keepRefKeys) initial before = some w)
    (found : w.contexts[c]? = some x) (checkpoint : x.history[k]? = some v)
    (ran : Machine.run (step mayCopy keepRefKeys) w acts = some t) :
    ∃ y, t.contexts[c]? = some y ∧ y.history[k]? = some v ∧ ∀ n, view t.objects n v = view w.objects n v := by
  obtain ⟨region,apart⟩ := runApart startApart started
  obtain ⟨y,there,_,_,longer⟩ := runOnward ran c x found
  refine ⟨y,there,?_,?_⟩
  · obtain ⟨rest,same⟩ := longer
    rw [← same,List.getElem?_append_left (Slots.inside checkpoint)]
    exact checkpoint
  · have filed := (apart.contexts x (List.mem_of_getElem? found)).2 v (List.mem_of_getElem? checkpoint)
    exact fun n => quietView apart filed.1 (fun _ _ _ _ _ _ => placeSome) ran n

/- Whatever anybody has done since a checkpoint was taken, restoring it gives an
attempt that shows the live state it was taken from. -/
theorem rollback {before : List (Action K A)} {m : World K A}
    (started : Machine.run (step mayCopy keepRefKeys) initial before = some w)
    (found : w.contexts[c]? = some x) (may : Copyable (copyable mayCopy) w.objects x.state)
    (taken : step mayCopy keepRefKeys w (.takeSnapshot c) = some m)
    (ran : Machine.run (step mayCopy keepRefKeys) m acts = some t) :
    ∃ u z, step mayCopy keepRefKeys t (.restoreVersion c x.history.length) = some u ∧
      u.contexts = t.contexts ++ [z] ∧ z.history.length = x.history.length + 1 ∧
      ∀ n, view u.objects n z.state = view w.objects n x.state := by
  obtain ⟨region,apart⟩ := runApart startApart started
  obtain ⟨copy,objects,done⟩ := deepcopyIff.mpr may
  obtain ⟨_,_,_,_,shows⟩ := grownDeepcopy apart.layout (none : Option Nat) done
  have next : m = ({w with objects := objects} : World K A).keep c copy := by
    simp only [step,found,Option.bind_eq_bind,Option.bind_some,World.deepcopying,done,Option.some.injEq] at taken
    exact taken.symm
  have snapshot : m.contexts[c]? = some {x with history := x.history ++ [copy]} := by
    rw [next]
    simp only [World.keep,List.getElem?_modify,found,if_true]
    rfl
  have begun : Machine.run (step mayCopy keepRefKeys) initial (before ++ [.takeSnapshot c]) = some m :=
    Machine.runSnoc.mpr ⟨w,started,taken⟩
  obtain ⟨y,there,checkpoint,kept⟩ := checkpointKept (k := x.history.length) (v := copy) begun snapshot
    (by rw [List.getElem?_append_right (Nat.le_refl _),Nat.sub_self]; rfl) ran
  have long : x.history.length < y.history.length := Slots.inside checkpoint
  have last : (y.history.take (x.history.length + 1)).getLast? = some copy := by
    rw [List.getLast?_eq_getElem?,List.length_take,Nat.min_eq_left long,Nat.succ_sub_one,
      List.getElem?_take_of_lt (Nat.lt_succ_self _)]
    exact checkpoint
  obtain ⟨region',apart'⟩ := runApart startApart (Machine.runAppend.mpr ⟨m,begun,ran⟩)
  have filed := (apart'.contexts y (List.mem_of_getElem? there)).2
  obtain ⟨objects',state,copies,whole,size,again⟩ := restored apart'
    (fun v member => filed v (List.mem_of_mem_take member)) last
  refine ⟨t.restore mayCopy (y.history.take (x.history.length + 1)),⟨t.held.length,state,copies⟩,?_,?_,?_,?_⟩
  · simp only [step,there,Option.bind_eq_bind,Option.bind_some,long,if_true]
  · rw [whole]
    rfl
  · rw [size,List.length_take,Nat.min_eq_left long]
  · intro n
    rw [whole]
    show view objects' n state = _
    rw [again n,kept n,next]
    exact shows n

def begun : List (Action Unit Nat) :=
  [.join,.create 0 ⟨.object (),[.atom 1]⟩,.create 0 ⟨.dict ["list"],[.ref 0]⟩,.createContext 0 (.ref 1)]

/- Then the graph writes into the live state and the caller into what it has passed. -/
def spoiled : List (Action Unit Nat) :=
  [.read 1 2 0,.change 1 3 ⟨.object (),[.atom 5]⟩,.change 0 0 ⟨.object (),[]⟩]

def after (w : World Unit Nat) (acts : List (Action Unit Nat)) : World Unit Nat :=
  (Machine.run (step (fun _ => true) []) w acts).getD w

def begunWorld : World Unit Nat := after initial begun
def savedWorld : World Unit Nat := after begunWorld [.takeSnapshot 0]
def spoiledWorld : World Unit Nat := after savedWorld spoiled

theorem begunRan : Machine.run (step (fun _ => true) []) initial begun = some begunWorld := rfl

theorem rollbackSpoiled : ∃ u z, step (fun _ => true) [] spoiledWorld (.restoreVersion 0 0) = some u ∧
    u.contexts = spoiledWorld.contexts ++ [z] ∧ z.history.length = 1 ∧
    ∀ n, view u.objects n z.state = view begunWorld.objects n (.ref 2) := by
  have may : Copyable (copyable (fun _ => true)) begunWorld.objects (.ref 2) := deepcopyIff.mp ⟨_,_,rfl⟩
  have ran : Machine.run (step (fun _ => true) []) savedWorld spoiled = some spoiledWorld := rfl
  exact rollback (x := ⟨1,.ref 2,[]⟩) begunRan rfl may rfl ran

/- Where nothing keeps its reference, callers, nodes and attempts see only their own changes. -/
theorem leftAlone {before : List (Action K A)} (none_ : keepRefKeys = [])
    (started : Machine.run (step mayCopy keepRefKeys) initial before = some w)
    (ran : Machine.run (step mayCopy keepRefKeys) w acts = some t) (idle : ∀ a ∈ acts, ∀ p o, a ≠ .change i p o) :
    (∀ l, w.held[i]? = some l → ∀ v ∈ l, ∀ n, view t.objects n v = view w.objects n v) ∧
    ∀ x ∈ w.contexts, x.owner = i → ∀ n, view t.objects n x.state = view w.objects n x.state := by
  obtain ⟨region,apart⟩ := runApart startApart started
  have quiet : ∀ a ∈ acts, ∀ j p o, a = .change j p o → place keepRefKeys j ≠ place keepRefKeys i := by
    rintro a member j p o rfl same
    simp only [place,none_,if_true,Option.some.injEq] at same
    exact idle _ member p o (same ▸ rfl)
  constructor
  · exact fun l found v member => quietView apart (apart.held i l found v member) quiet ran
  · rintro x member rfl
    exact quietView apart (apart.contexts x member).1 quiet ran

def nodeWorks : List (Action Unit Nat) := [.startNode 0,.read 2 4 0,.change 2 5 ⟨.object (),[.atom 9]⟩]

theorem leftAloneByNode : (∀ n, view (after begunWorld nodeWorks).objects n (.ref 2) = view begunWorld.objects n (.ref 2)) ∧
    (after begunWorld nodeWorks).objects.length = 6 := by
  have ran : Machine.run (step (fun _ => true) []) begunWorld nodeWorks = some (after begunWorld nodeWorks) := rfl
  have idle : ∀ a ∈ nodeWorks, ∀ p o, a ≠ Action.change 1 p o := by
    intro a member p o
    simp only [nodeWorks,List.mem_cons,List.not_mem_nil,or_false] at member
    rcases member with rfl | rfl | rfl <;> simp
  obtain ⟨_,live⟩ := leftAlone (i := 1) rfl begunRan ran idle
  have attempt : (⟨1,.ref 2,[]⟩ : Context Nat) ∈ begunWorld.contexts := .head _
  exact ⟨live ⟨1,.ref 2,[]⟩ attempt rfl,rfl⟩

end Histories

end Apixis.Isolation
