import Apixis.Graph.NodeGraph
import Apixis.Library.DeepCopy

/-! `copy_state` on objects that refer to one another: which of them the copy shares
with the original, and that it shows the values that a copy shows in `NodeGraph`. -/
namespace Apixis.CopyState
open Heap

variable {K A : Type}

/- A dictionary with its keys in order, or an object of another type. -/
inductive Label (K : Type) where
  | dict (keys : List String)
  | object (kind : K)
  deriving DecidableEq, Repr

abbrev Objects (K A : Type) := Store (Label K) A
abbrev Entry (A : Type) := String × Value A

/- Which objects `copy.deepcopy` can copy. -/
def copyable (mayCopy : K → Bool) : Label K → Bool
  | .dict _ => true
  | .object kind => mayCopy kind

def dictAt (h : Objects K A) : Value A → Option (List (Entry A))
  | .atom _ => none
  | .ref p => match h[p]? with
      | some ⟨.dict keys,slots⟩ => some (keys.zip slots)
      | _ => none

def makeDict (entries : List (Entry A)) : Object (Label K) A :=
  ⟨.dict (entries.map Prod.fst),entries.map Prod.snd⟩

def uncopied : PyError := ⟨.copyError,"cannot copy state"⟩

def field (keepRefKeys : List String) (copied : List (Entry A)) (key : String) (value : Value A) :
    Except PyError (Value A) :=
  if keepRefKeys.contains key then .ok value
  else match copied.lookup key with
    | some w => .ok w
    | none => .error ⟨.keyError,key⟩

def rebuilt (keepRefKeys : List String) (copied : List (Entry A)) :
    List (Entry A) → Except PyError (List (Entry A))
  | [] => .ok []
  | (key,value) :: rest => do
      let here ← field keepRefKeys copied key value
      let others ← rebuilt keepRefKeys copied rest
      return (key,here) :: others

def others (keepRefKeys : List String) (entries : List (Entry A)) : List (Entry A) :=
  entries.filter (fun e => !keepRefKeys.contains e.1)

section Copy
variable (mayCopy : K → Bool)

def copyOrRaise (h : Objects K A) (v : Value A) : Except PyError (Value A × Objects K A) :=
  match deepcopy (copyable mayCopy) h v with
  | some copy => .ok copy
  | none => .error uncopied

/- The fields that keep their reference are left out of what is copied, and the
state is put together again in its own order. -/
def copyState (keepRefKeys : List String) (h : Objects K A) (state : Value A) :
    Except PyError (Value A × Objects K A) :=
  match dictAt h state with
  | none => .error ⟨.typeError,"Graph state must be a dict."⟩
  | some entries =>
      if keepRefKeys.isEmpty then copyOrRaise mayCopy h state
      else do
        let (copy,h') ← copyOrRaise mayCopy (h ++ [makeDict (others keepRefKeys entries)]) (.ref h.length)
        let fields ← rebuilt keepRefKeys ((dictAt h' copy).getD []) entries
        return (.ref h'.length,h' ++ [makeDict fields])

end Copy

def Whole (h : Objects K A) : Prop := ClosedIn h (fun p => p < h.length)

structure DictAt (h : Objects K A) (p : Nat) (keys : List String) (slots : List (Value A)) : Prop where
  found : h[p]? = some ⟨.dict keys,slots⟩
  sizes : keys.length = slots.length
  distinct : keys.Nodup

def Field (keepRefKeys : List String) (h h' : Objects K A) (m : Nat → Option Nat) (e f : Entry A) : Prop :=
  f.1 = e.1 ∧ (e.1 ∈ keepRefKeys → f.2 = e.2) ∧ (e.1 ∉ keepRefKeys → Twin h h' m e.2 f.2)

variable {mayCopy : K → Bool} {keepRefKeys : List String} {h h' : Objects K A} {p q : Nat}
  {keys : List String} {slots : List (Value A)} {v w : Value A} {entries : List (Entry A)}

theorem zipKeys (sizes : keys.length = slots.length) : (keys.zip slots).map Prod.fst = keys :=
  List.map_fst_zip (by omega)

theorem zipValues (sizes : keys.length = slots.length) : (keys.zip slots).map Prod.snd = slots :=
  List.map_snd_zip (by omega)

theorem dictAtOf (dict : DictAt h p keys slots) : dictAt h (.ref p) = some (keys.zip slots) := by
  simp only [dictAt,dict.found]

theorem wholeSlot (whole : Whole h) (dict : DictAt h p keys slots) {key : String}
    (member : (key,v) ∈ keys.zip slots) : ∀ q, v = .ref q → q < h.length := by
  intro q same
  refine whole p _ (List.getElem?_eq_some_iff.mp dict.found).1 dict.found q ?_
  rw [← same]
  exact (List.of_mem_zip member).2

section Extended
variable {x : Object (Label K) A} (whole : Whole h) (inside : ∀ q, v = .ref q → q < h.length)
include whole inside

theorem reachInside (reached : Reach h v q) : q < h.length :=
  reachClosed (S := fun p => p < h.length) whole inside reached

theorem reachExtended : Reach (h ++ [x]) v p ↔ Reach h v p := by
  refine reachAgree ?_
  intro q reached
  exact List.getElem?_append_left (reachInside whole inside reached)

theorem copyableExtended :
    Copyable (copyable mayCopy) (h ++ [x]) v ↔ Copyable (copyable mayCopy) h v := by
  have same : ∀ p, Reach h v p → (h ++ [x])[p]? = h[p]? :=
    fun p reached => List.getElem?_append_left (reachInside whole inside reached)
  constructor
  · intro may p reached
    rw [← same p reached]
    exact may p ((reachExtended whole inside).mpr reached)
  · exact copyableAgree same

theorem twinExtended {new new' : Objects K A} {m : Nat → Option Nat} (twin : Twin (h ++ [x]) new m v w)
    (front : new <+: new') : Twin h new' (fun r => if r < h.length then m r else none) v w := by
  refine ⟨?_,?_,?_⟩
  · cases v with
    | atom a => cases w <;> exact twin.stands
    | ref r => cases w with
      | atom b => exact twin.stands
      | ref s =>
        have known : m r = some s := twin.stands
        simp only [Stands,inside r rfl,if_true,known]
  · intro r s known
    split at known
    · rename_i small
      obtain ⟨o,slots,before,after,each⟩ := twin.renamed r s known
      rw [List.getElem?_append_left small] at before
      refine ⟨o,slots,before,frontGet front after,?_⟩
      have within : ∀ y ∈ o.slots, ∀ t, y = .ref t → t < h.length := by
        rintro y member t rfl
        exact whole r o small before t member
      clear before after
      generalize o.slots = olds at each within
      induction each with
      | nil => exact .nil
      | @cons y z ys zs here _ ih =>
        refine .cons ?_ (ih (fun u member => within u (List.mem_cons_of_mem _ member)))
        cases y with
        | atom a => cases z <;> exact here
        | ref t => cases z with
          | atom b => exact here
          | ref u =>
            have known : m t = some u := here
            simp only [Stands,within _ List.mem_cons_self t rfl,if_true,known]
    · cases known
  · intro r r' s one two
    split at one <;> try contradiction
    split at two <;> try contradiction
    exact twin.apart r r' s one two

end Extended

theorem rebuiltSpec {R : Value A → Value A → Prop} {copied : List (Entry A)}
    (each : List.Forall₂ (fun e f : Entry A => f.1 = e.1 ∧ R e.2 f.2) (others keepRefKeys entries) copied)
    (distinct : (entries.map Prod.fst).Nodup) :
    ∃ fields, rebuilt keepRefKeys copied entries = .ok fields ∧
      List.Forall₂ (fun e f : Entry A => f.1 = e.1 ∧ (e.1 ∈ keepRefKeys → f.2 = e.2) ∧
        (e.1 ∉ keepRefKeys → R e.2 f.2)) entries fields := by
  have found : ∀ e ∈ others keepRefKeys entries, ∃ w, copied.lookup e.1 = some w ∧ R e.2 w := by
    have keysOnce : ((others keepRefKeys entries).map Prod.fst).Nodup :=
      distinct.sublist (List.filter_sublist.map Prod.fst)
    clear distinct
    generalize others keepRefKeys entries = ordinary at each keysOnce
    induction each with
    | nil => simp
    | @cons e f es fs here _ ih =>
      rw [List.map_cons,List.nodup_cons] at keysOnce
      intro g member
      rcases List.mem_cons.mp member with rfl | later
      · refine ⟨f.2,?_,here.2⟩
        obtain ⟨key,value⟩ := f
        obtain rfl : key = g.1 := here.1
        simp
      · obtain ⟨w,there,related⟩ := ih keysOnce.2 g later
        refine ⟨w,?_,related⟩
        have other : g.1 ≠ f.1 := by
          intro same
          refine keysOnce.1 ?_
          rw [← here.1,← same]
          exact List.mem_map_of_mem later
        obtain ⟨key,value⟩ := f
        simp only [List.lookup_cons,show (g.1 == key) = false from beq_eq_false_iff_ne.mpr other]
        exact there
  clear each distinct
  induction entries with
  | nil => exact ⟨[],rfl,.nil⟩
  | cons e rest ih =>
    obtain ⟨key,value⟩ := e
    by_cases kept : key ∈ keepRefKeys
    · obtain ⟨fields,done,each⟩ := ih (fun g member => found g (by simpa [others,kept] using member))
      refine ⟨(key,value) :: fields,?_,.cons ⟨rfl,fun _ => rfl,fun no => absurd kept no⟩ each⟩
      simp only [rebuilt,field,done,List.contains_iff_mem,kept,if_true]
      rfl
    · obtain ⟨w,there,related⟩ := found (key,value) (by simp [others,kept])
      obtain ⟨fields,done,each⟩ := ih (fun g member => found g (by
        simp only [others,List.filter_cons]
        split
        · exact List.mem_cons_of_mem _ member
        · exact member))
      refine ⟨(key,w) :: fields,?_,.cons ⟨rfl,fun yes => absurd yes kept,fun _ => related⟩ each⟩
      simp only [rebuilt,field,done,List.contains_iff_mem,kept,there]
      rfl

theorem lookupMem {l : List (Entry A)} {key : String} (found : l.lookup key = some v) : (key,v) ∈ l := by
  obtain ⟨before,after,rfl,_⟩ := List.lookup_eq_some_iff.mp found
  simp

theorem rebuiltFrom {copied fields : List (Entry A)} (done : rebuilt keepRefKeys copied entries = .ok fields) :
    ∀ f ∈ fields, (∃ e ∈ entries, f.2 = e.2) ∨ ∃ e ∈ copied, f.2 = e.2 := by
  induction entries generalizing fields with
  | nil => cases done; simp
  | cons e rest ih =>
    obtain ⟨key,value⟩ := e
    simp only [rebuilt,PyError.bindOk] at done
    obtain ⟨here,first,others,second,last⟩ := done
    cases last
    intro f member
    rcases List.mem_cons.mp member with rfl | later
    · unfold field at first
      split at first
      · cases first
        exact .inl ⟨(key,value),List.mem_cons_self,rfl⟩
      · split at first
        · rename_i found
          cases first
          exact .inr ⟨_,lookupMem found,rfl⟩
        · cases first
    · rcases ih second f later with ⟨e,inside,same⟩ | new
      · exact .inl ⟨e,List.mem_cons_of_mem _ inside,same⟩
      · exact .inr new

theorem dictAtSome (found : dictAt h v = some entries) :
    ∃ p keys slots, v = .ref p ∧ h[p]? = some ⟨.dict keys,slots⟩ ∧ entries = keys.zip slots := by
  cases v with
  | atom a => cases found
  | ref p =>
    simp only [dictAt] at found
    split at found <;> try contradiction
    rename_i keys slots there
    exact ⟨p,keys,slots,rfl,there,(Option.some.inj found).symm⟩

theorem keysAlike {R : Entry A → Entry A → Prop} {fields : List (Entry A)}
    (each : List.Forall₂ (fun e f : Entry A => f.1 = e.1 ∧ R e f) entries fields) :
    fields.map Prod.fst = entries.map Prod.fst := by
  induction each with
  | nil => rfl
  | cons here _ ih => rw [List.map_cons,List.map_cons,here.1,ih]

theorem zipAlike {R : Value A → Value A → Prop} {slots' : List (Value A)}
    (each : List.Forall₂ R slots slots') (keys : List String) :
    List.Forall₂ (fun e f : Entry A => f.1 = e.1 ∧ R e.2 f.2) (keys.zip slots) (keys.zip slots') := by
  induction each generalizing keys with
  | nil => cases keys <;> exact .nil
  | cons here _ ih =>
    cases keys with
    | nil => exact .nil
    | cons key rest => exact .cons ⟨rfl,here⟩ (ih rest)

theorem makeDictAt {fields : List (Entry A)} (front : h.length = p) (distinct : (fields.map Prod.fst).Nodup) :
    DictAt (h ++ [makeDict fields]) p (fields.map Prod.fst) (fields.map Prod.snd) := by
  refine ⟨?_,by simp,distinct⟩
  rw [← front,List.getElem?_append_right (Nat.le_refl _),Nat.sub_self]
  rfl

theorem dictCopied {m : Nat → Option Nat} (dict : DictAt h p keys slots)
    (twin : Twin h h' m (.ref p) w) : ∃ q slots', w = .ref q ∧ m p = some q ∧ DictAt h' q keys slots' ∧
      List.Forall₂ (Twin h h' m) slots slots' := by
  obtain ⟨q,rfl,known⟩ := standsRef twin.stands
  obtain ⟨o,slots',before,after,each⟩ := twin.renamed p q known
  cases Option.some.inj (before.symm.trans dict.found)
  refine ⟨q,slots',rfl,known,⟨after,?_,dict.distinct⟩,each.imp (fun _ _ stands => ⟨stands,twin.renamed,twin.apart⟩)⟩
  rw [dict.sizes]
  exact each.length_eq

theorem othersDistinct (distinct : (entries.map Prod.fst).Nodup) :
    ((others keepRefKeys entries).map Prod.fst).Nodup :=
  distinct.sublist (List.filter_sublist.map Prod.fst)

theorem zipSplit {fields : List (Entry A)} : (fields.map Prod.fst).zip (fields.map Prod.snd) = fields := by
  induction fields with
  | nil => rfl
  | cons e rest ih => rw [List.map_cons,List.map_cons,List.zip_cons_cons,ih]

theorem copyOrRaiseOk : copyOrRaise mayCopy h v = .ok (w,h') ↔ deepcopy (copyable mayCopy) h v = some (w,h') := by
  unfold copyOrRaise
  split
  · rename_i copy copied
    rw [copied]
    exact ⟨fun same => by cases same; rfl,fun same => by cases same; rfl⟩
  · rename_i none_
    simp [none_]

theorem copyOrRaiseCases :
    Copyable (copyable mayCopy) h v ∧ (∃ r, copyOrRaise mayCopy h v = .ok r) ∨
    ¬ Copyable (copyable mayCopy) h v ∧ copyOrRaise mayCopy h v = .error uncopied := by
  by_cases may : Copyable (copyable mayCopy) h v
  · obtain ⟨w,h',done⟩ := deepcopyIff.mpr may
    exact .inl ⟨may,(w,h'),copyOrRaiseOk.mpr done⟩
  · refine .inr ⟨may,?_⟩
    unfold copyOrRaise
    split
    · rename_i copy copied
      exact absurd (deepcopyIff.mp ⟨copy.1,copy.2,copied⟩) may
    · rfl

section Outcome
variable (whole : Whole h) (dict : DictAt h p keys slots)

section Ordinary
include dict

theorem keysOnce : ((keys.zip slots).map Prod.fst).Nodup := by
  rw [zipKeys dict.sizes]
  exact dict.distinct

theorem temporary : DictAt (h ++ [makeDict (others keepRefKeys (keys.zip slots))]) h.length
    ((others keepRefKeys (keys.zip slots)).map Prod.fst) ((others keepRefKeys (keys.zip slots)).map Prod.snd) :=
  makeDictAt rfl (othersDistinct (keysOnce dict))

/- From the copy of the other fields on nothing can fail. -/
theorem assembled {copy : Value A} {h1 : Objects K A}
    (copied : deepcopy (copyable mayCopy) (h ++ [makeDict (others keepRefKeys (keys.zip slots))]) (.ref h.length) =
      some (copy,h1)) :
    ∃ m fields, Duplicate (h ++ [makeDict (others keepRefKeys (keys.zip slots))]) h1 m [.ref h.length] [copy] ∧
      rebuilt keepRefKeys ((dictAt h1 copy).getD []) (keys.zip slots) = .ok fields ∧
      List.Forall₂ (Field keepRefKeys (h ++ [makeDict (others keepRefKeys (keys.zip slots))]) h1 m)
        (keys.zip slots) fields := by
  obtain ⟨m,duplicate⟩ := deepcopySpec copied
  obtain ⟨twin,_⟩ := List.forall₂_cons.mp duplicate.twins
  obtain ⟨q,slots',rfl,_,dict',each⟩ := dictCopied (temporary dict) twin
  have pairs := zipAlike each ((others keepRefKeys (keys.zip slots)).map Prod.fst)
  rw [zipSplit] at pairs
  obtain ⟨fields,put,alike⟩ := rebuiltSpec pairs (keysOnce dict)
  refine ⟨m,fields,duplicate,?_,alike⟩
  rw [dictAtOf dict',Option.getD_some]
  exact put

end Ordinary

include whole dict

theorem copyStateOk (done : copyState mayCopy keepRefKeys h (.ref p) = .ok (w,h')) :
    ∃ q slots' m, w = .ref q ∧ h.length ≤ q ∧ DictAt h' q keys slots' ∧ h <+: h' ∧
      (∀ r s, m r = some s → h.length ≤ s) ∧
      List.Forall₂ (Field keepRefKeys h h' m) (keys.zip slots) (keys.zip slots') := by
  simp only [copyState,dictAtOf dict] at done
  split at done
  · rename_i none_
    have empty : keepRefKeys = [] := List.isEmpty_iff.mp none_
    obtain ⟨m,duplicate⟩ := deepcopySpec (copyOrRaiseOk.mp done)
    obtain ⟨twin,_⟩ := List.forall₂_cons.mp duplicate.twins
    obtain ⟨q,slots',rfl,known,dict',each⟩ := dictCopied dict twin
    refine ⟨q,slots',m,rfl,(duplicate.fresh p q known).1,dict',duplicate.kept,
      fun r s named => (duplicate.fresh r s named).1,?_⟩
    refine (zipAlike each keys).imp ?_
    rintro e f ⟨named,twin⟩
    exact ⟨named,fun kept => by simp [empty] at kept,fun _ => twin⟩
  · simp only [PyError.bindOk] at done
    obtain ⟨⟨copy,h1⟩,copied,fields,put,last⟩ := done
    cases last
    obtain ⟨m,fields',duplicate,put',alike⟩ := assembled dict (copyOrRaiseOk.mp copied)
    cases put.symm.trans put'
    have grown : h.length + 1 ≤ h1.length := by
      have kept := duplicate.kept.length_le
      rwa [List.length_append,List.length_singleton] at kept
    have named : fields.map Prod.fst = keys := by
      rw [keysAlike alike,zipKeys dict.sizes]
    have result := makeDictAt (h := h1) rfl (by rw [named]; exact dict.distinct : (fields.map Prod.fst).Nodup)
    rw [named] at result
    refine ⟨h1.length,fields.map Prod.snd,fun r => if r < h.length then m r else none,rfl,by omega,result,?_,?_,?_⟩
    · exact ((List.prefix_append _ _).trans duplicate.kept).trans (List.prefix_append _ _)
    · intro r s known
      simp only at known
      split at known
      · have low := (duplicate.fresh r s known).1
        rw [List.length_append] at low
        omega
      · cases known
    · have split_ : keys.zip (fields.map Prod.snd) = fields := by rw [← named,zipSplit]
      rw [split_]
      refine forallMem alike ?_
      rintro e f member ⟨same,kept,ordinary⟩
      refine ⟨same,kept,fun other => ?_⟩
      exact twinExtended whole (wholeSlot whole dict member) (ordinary other) (List.prefix_append _ _)

/- The copy fails for nothing but an object below a field that is copied. -/
theorem copyStateCases :
    (∀ e ∈ keys.zip slots, e.1 ∉ keepRefKeys → Copyable (copyable mayCopy) h e.2) ∧
      (∃ r, copyState mayCopy keepRefKeys h (.ref p) = .ok r) ∨
    (¬ ∀ e ∈ keys.zip slots, e.1 ∉ keepRefKeys → Copyable (copyable mayCopy) h e.2) ∧
      copyState mayCopy keepRefKeys h (.ref p) = .error uncopied := by
  simp only [copyState,dictAtOf dict]
  split
  · rename_i none_
    have empty : keepRefKeys = [] := List.isEmpty_iff.mp none_
    have fields : Copyable (copyable mayCopy) h (.ref p) ↔
        ∀ e ∈ keys.zip slots, e.1 ∉ keepRefKeys → Copyable (copyable mayCopy) h e.2 := by
      rw [copyableRef]
      constructor
      · rintro ⟨o,found,_,below⟩ e member _
        cases Option.some.inj (found.symm.trans dict.found)
        exact below e.2 (List.of_mem_zip member).2
      · intro all
        refine ⟨_,dict.found,rfl,?_⟩
        intro v member
        rw [← zipValues dict.sizes] at member
        obtain ⟨e,inside,rfl⟩ := List.mem_map.mp member
        exact all e inside (by simp [empty])
    rw [← fields]
    exact copyOrRaiseCases
  · have fields : Copyable (copyable mayCopy) (h ++ [makeDict (others keepRefKeys (keys.zip slots))]) (.ref h.length) ↔
        ∀ e ∈ keys.zip slots, e.1 ∉ keepRefKeys → Copyable (copyable mayCopy) h e.2 := by
      rw [copyableRef]
      constructor
      · rintro ⟨o,found,_,below⟩ e member other
        cases Option.some.inj (found.symm.trans (temporary dict).found)
        refine (copyableExtended whole (wholeSlot whole dict member)).mp (below e.2 ?_)
        exact List.mem_map_of_mem (List.mem_filter.mpr ⟨member,by simpa using other⟩)
      · intro all
        refine ⟨_,(temporary dict).found,rfl,?_⟩
        intro v inside
        obtain ⟨e,kept,rfl⟩ := List.mem_map.mp inside
        obtain ⟨member,other⟩ := List.mem_filter.mp kept
        exact (copyableExtended whole (wholeSlot whole dict member)).mpr (all e member (by simpa using other))
    rw [← fields]
    have outcome := @copyOrRaiseCases K A mayCopy (h ++ [makeDict (others keepRefKeys (keys.zip slots))]) (.ref h.length)
    rcases outcome with ⟨may,copied⟩ | ⟨not_,failed⟩
    · refine .inl ⟨may,?_⟩
      obtain ⟨⟨copy,h1⟩,copied⟩ := copied
      obtain ⟨m,fields,_,put,_⟩ := assembled dict (copyOrRaiseOk.mp copied)
      refine ⟨(.ref h1.length,h1 ++ [makeDict fields]),?_⟩
      simp only [PyError.bindOk]
      exact ⟨_,copied,fields,put,rfl⟩
    · refine .inr ⟨not_,?_⟩
      rw [failed]
      rfl

end Outcome

/- What `copy_state` promises, and when: the same keys in the same order, a field that
keeps its reference the same object, every other one a copy with the sharing and the
cycles of the original and not one of its objects. -/
theorem copies (whole : Whole h) (dict : DictAt h p keys slots) :
    ((∃ r, copyState mayCopy keepRefKeys h (.ref p) = .ok r) ↔
      ∀ e ∈ keys.zip slots, e.1 ∉ keepRefKeys → Copyable (copyable mayCopy) h e.2) ∧
    ∀ w h', copyState mayCopy keepRefKeys h (.ref p) = .ok (w,h') →
      h <+: h' ∧ ∃ q slots' m, w = .ref q ∧ h.length ≤ q ∧ DictAt h' q keys slots' ∧
        List.Forall₂ (fun e f : Entry A => f.1 = e.1 ∧ (e.1 ∈ keepRefKeys → f.2 = e.2) ∧
          (e.1 ∉ keepRefKeys → Twin h h' m e.2 f.2 ∧ ∀ r, Reach h' f.2 r → h.length ≤ r))
          (keys.zip slots) (keys.zip slots') := by
  constructor
  · rcases @copyStateCases K A mayCopy keepRefKeys h p keys slots whole dict with ⟨may,done⟩ | ⟨not_,failed⟩
    · exact ⟨fun _ => may,fun _ => done⟩
    · refine ⟨?_,fun may => absurd may not_⟩
      rintro ⟨r,done⟩
      rw [failed] at done
      cases done
  · intro w h' done
    obtain ⟨q,slots',m,same,new,dict',front,fresh,alike⟩ := copyStateOk whole dict done
    refine ⟨front,q,slots',m,same,new,dict',alike.imp ?_⟩
    rintro e f ⟨named,kept,ordinary⟩
    refine ⟨named,kept,fun other => ⟨ordinary other,?_⟩⟩
    intro r reached
    obtain ⟨s,known,_⟩ := twinBack (ordinary other) reached
    exact fresh s r known

def wholeCheck (h : Objects K A) : Bool :=
  h.all (fun o => o.slots.all (fun v => match v with
    | .atom _ => true
    | .ref p => decide (p < h.length)))

theorem wholeOfCheck (good : wholeCheck h = true) : Whole h := by
  intro p o _ found q points
  have each := List.all_eq_true.mp (List.all_eq_true.mp good o (List.mem_of_getElem? found)) _ points
  exact of_decide_eq_true each

/- Two fields share a list that holds itself, a third one keeps a resource that cannot
be copied. -/
def shared : Objects Bool Nat :=
  [⟨.dict ["left","resource","right"],[.ref 1,.ref 2,.ref 1]⟩,⟨.object true,[.atom 7,.ref 1]⟩,⟨.object false,[.ref 1]⟩]

theorem sharedWhole : Whole shared := wholeOfCheck (by decide)
theorem sharedDict : DictAt shared 0 ["left","resource","right"] [.ref 1,.ref 2,.ref 1] := ⟨rfl,rfl,by decide⟩

theorem copiesShared : (∃ r, copyState id ["resource"] shared (.ref 0) = .ok r) ∧
    ∀ w h', copyState id ["resource"] shared (.ref 0) = .ok (w,h') → shared <+: h' := by
  obtain ⟨exact_,parts⟩ := @copies Bool Nat id ["resource"] _ _ _ _ sharedWhole sharedDict
  refine ⟨⟨_,rfl⟩,fun w h' done => (parts w h' done).1⟩

abbrev Shown (K A : Type) := Nat → Tree (Label K) A

def shown (h : Objects K A) (v : Value A) : Shown K A := fun n => view h n v

open Classical in
/- Whether `copy.deepcopy` can copy a value that shows this. -/
noncomputable def shownCopyable (mayCopy : K → Bool) (s : Shown K A) : Bool :=
  decide (∀ n, (s n).All (fun label => copyable mayCopy label = true))

def stateOf (h : Objects K A) (v : Value A) : NodeGraph.StateDict (Shown K A) :=
  match dictAt h v with
  | some entries => if distinct : (entries.map Prod.fst).Nodup then
      ⟨entries.map (fun e => (e.1,shown h e.2)),by rw [List.map_map]; exact distinct⟩ else .empty
  | none => .empty

theorem stateOfDict (dict : DictAt h p keys slots) :
    (stateOf h (.ref p)).entries = (keys.zip slots).map (fun e => (e.1,shown h e.2)) := by
  simp only [stateOf,dictAtOf dict,keysOnce dict,dif_pos]

theorem copyableOfShown (whole : Whole h) (inside : ∀ q, v = .ref q → q < h.length) :
    shownCopyable mayCopy (shown h v) = true ↔ Copyable (copyable mayCopy) h v := by
  have there : ∀ q, Reach h v q → q < h.length := fun q reached => reachInside whole inside reached
  have shows : shownCopyable mayCopy (shown h v) = true ↔ ∀ n, (view h n v).All (fun label => copyable mayCopy label = true) := by
    classical exact decide_eq_true_iff
  rw [shows,viewAll there]
  constructor
  · intro labels q reached
    exact ⟨_,List.getElem?_eq_getElem (there q reached),labels q _ reached (List.getElem?_eq_getElem (there q reached))⟩
  · intro may q o reached found
    obtain ⟨o',found',own⟩ := may q reached
    cases Option.some.inj (found.symm.trans found')
    exact own

/- A copy shows what the original shows. -/
theorem copyShows (whole : Whole h) (dict : DictAt h p keys slots)
    (done : copyState mayCopy keepRefKeys h (.ref p) = .ok (w,h')) : stateOf h' w = stateOf h (.ref p) := by
  obtain ⟨q,slots',m,rfl,_,dict',front,_,alike⟩ := copyStateOk whole dict done
  have entries : (stateOf h' (.ref q)).entries = (stateOf h (.ref p)).entries := by
    rw [stateOfDict dict,stateOfDict dict']
    have each : List.Forall₂ (fun e f : Entry A => (f.1,shown h' f.2) = (e.1,shown h e.2))
        (keys.zip slots) (keys.zip slots') := by
      refine forallMem alike ?_
      rintro e f member ⟨same,kept,ordinary⟩
      refine Prod.ext same (funext fun n => ?_)
      by_cases known : e.1 ∈ keepRefKeys
      · rw [kept known]
        exact viewAgree (fun r reached => frontSame front (reachInside whole (wholeSlot whole dict member) reached))
      · exact twinView (ordinary known) n
    clear alike
    generalize keys.zip slots = before at each
    generalize keys.zip slots' = after at each
    induction each with
    | nil => rfl
    | cons here _ ih => rw [List.map_cons,List.map_cons,here,ih]
  cases one : stateOf h' (.ref q)
  cases two : stateOf h (.ref p)
  rw [one,two] at entries
  cases entries
  rfl

/- `copy_state` on objects does what the copy of `NodeGraph` does on what they show. -/
theorem refines (whole : Whole h) (dict : DictAt h p keys slots) :
    NodeGraph.copyState (shownCopyable mayCopy) keepRefKeys (stateOf h (.ref p)) =
      (copyState mayCopy keepRefKeys h (.ref p)).map (fun r => stateOf r.2 r.1) := by
  have copies : (stateOf h (.ref p)).entries.any (fun e => !keepRefKeys.contains e.1 && !shownCopyable mayCopy e.2) = false ↔
      ∀ e ∈ keys.zip slots, e.1 ∉ keepRefKeys → Copyable (copyable mayCopy) h e.2 := by
    rw [stateOfDict dict,List.any_map,List.any_eq_false]
    refine forall_congr' fun e => forall_congr' fun member => ?_
    rw [← copyableOfShown whole (wholeSlot whole dict member)]
    simp only [Function.comp,Bool.and_eq_true,Bool.not_eq_true',List.contains_eq_mem,decide_eq_false_iff_not,not_and,
      Bool.not_eq_false]
  rcases @copyStateCases K A mayCopy keepRefKeys h p keys slots whole dict with ⟨may,r,done⟩ | ⟨not_,failed⟩
  · rw [done,NodeGraph.copyState,copies.mpr may]
    exact congrArg Except.ok (copyShows whole dict done).symm
  · rw [failed,NodeGraph.copyState,Bool.of_not_eq_false (fun none_ => not_ (copies.mp none_))]
    rfl

theorem refinesShared :
    NodeGraph.copyState (shownCopyable id) ["resource"] (stateOf shared (.ref 0)) =
      (copyState id ["resource"] shared (.ref 0)).map (fun r => stateOf r.2 r.1) ∧
    (copyState id ["resource"] shared (.ref 0)).isOk = true :=
  ⟨refines sharedWhole sharedDict,rfl⟩

end Apixis.CopyState
