import Apixis.Event.HandlerRegistry
import Apixis.Library.Slots

/-! What the registry keeps true: names and buckets agree, and every cached chain
is what a fresh resolution would give. One step drops or inserts one name, so the
caches that its handler does not match keep their filter. -/
namespace Apixis.ChainCache
open HandlerRegistry PyError

variable {fnmatchcase : String → String → Bool} {r s t : Registry} {n m event : String} {ref : Nat}
  {h entry : Handler} {k : ℚ} {p : Priority}

def texts : Patterns → List String
  | .items l => l.filterMap Pattern.string?
  | _ => []

def accepts (fnmatchcase : String → String → Bool) (h : Handler) (event : String) : Bool :=
  (texts h.subscribe).any (fnmatchcase event) && !(texts h.filterEvent).any (fnmatchcase event)

/- The patterns of a handler that was registered. -/
def Normal (h : Handler) : Prop :=
  ∃ subscriptions filters, h.subscribe = ofStrings subscriptions ∧ h.filterEvent = ofStrings filters

def selects (fnmatchcase : String → String → Bool) (r : Registry) (event name : String) : Bool :=
  match r.handler name with
  | none => false
  | some h => accepts fnmatchcase h event

/- The current dispatch order, filtered by who accepts the event. -/
def fresh (fnmatchcase : String → String → Bool) (r : Registry) (event : String) : List String :=
  r.activeNames.filter (selects fnmatchcase r event)

def Placed (buckets : Dict ℚ (List String)) (n : String) : Priority → Prop
  | .none => True
  | p => ∃ k, p.key = some k ∧ n ∈ Buckets.bucket buckets k

structure Entry (buckets : Dict ℚ (List String)) (n : String) (h : Handler) : Prop where
  name : h.name = n
  normal : Normal h
  placed : Placed buckets n h.priority

structure Coherent (fnmatchcase : String → String → Bool) (r : Registry) : Prop where
  separate : Buckets.Separate r.priorityBuckets
  filled : ∀ k b, r.priorityBuckets.get k = some b → b ≠ []
  names : ∀ n, n ∈ r.activeNames ↔ n ∈ r.registry.keys
  known : ∀ n ref, r.registry.get n = some ref → ∃ h, r.heap[ref]? = some h ∧
    Entry r.priorityBuckets n h
  cached : ∀ event chain, r.cachedChain.get event = some chain → chain = fresh fnmatchcase r event

theorem textsOf (l : List String) : texts (ofStrings l) = l := by
  simp only [texts,ofStrings,List.filterMap_map]
  induction l with
  | nil => rfl
  | cons s rest ih => simp only [List.filterMap_cons,Function.comp,Pattern.string?,ih]

theorem anyMatchesTexts (l : List String) :
    anyMatches fnmatchcase event (l.map .text) = .ok (l.any (fnmatchcase event)) := by
  induction l with
  | nil => rfl
  | cons s rest ih =>
    simp only [List.map_cons,anyMatches,List.any_cons]
    cases fnmatchcase event s with
    | true => rfl
    | false => simpa using ih

theorem matchesNormal (normal : Normal h) :
    matchesHandler fnmatchcase h event = .ok (accepts fnmatchcase h event) := by
  obtain ⟨subscriptions,filters,subscribe,filterEvent⟩ := normal
  have left := @anyMatchesTexts fnmatchcase event subscriptions
  have right := @anyMatchesTexts fnmatchcase event filters
  rw [matchesHandler,accepts,subscribe,filterEvent,textsOf,textsOf]
  simp only [ofStrings,Patterns.iterate] at left right ⊢
  simp only [bind,Except.bind,left,right]
  rfl

theorem selectEventsNormal (normal : Normal h) (l : List String) :
    selectEvents fnmatchcase h l = .ok (l.filter (accepts fnmatchcase h)) := by
  induction l with
  | nil => rfl
  | cons event rest ih =>
    simp only [selectEvents,matchesNormal normal,ih,bind,Except.bind,pure,Except.pure]
    cases good : accepts fnmatchcase h event <;> simp [good]

theorem eraseAll (l : List String) (d : Dict String (List String)) (event : String) :
    (l.foldl Dict.erase d).get event = if event ∈ l then none else d.get event := by
  induction l generalizing d with
  | nil => simp
  | cons name rest ih =>
    rw [List.foldl_cons,ih,Dict.getErase]
    by_cases here : event = name
    · simp [here]
    · simp [here]

theorem invalidated (normal : Normal h) (r : Registry) :
    ∃ cache, invalidateMatchingChains fnmatchcase r h = .ok {r with cachedChain := cache} ∧
      ∀ event, cache.get event =
        if accepts fnmatchcase h event then none else r.cachedChain.get event := by
  refine ⟨(r.cachedChain.keys.filter (accepts fnmatchcase h)).foldl Dict.erase r.cachedChain,?_,?_⟩
  · simp only [invalidateMatchingChains,selectEventsNormal normal,bind,Except.bind,pure,Except.pure]
  · intro event
    simp only [eraseAll,List.mem_filter]
    by_cases inside : event ∈ r.cachedChain.keys
    · simp [inside]
    · have absent := Dict.getNone.mpr inside
      simp [inside,absent]

theorem handlerOf (found : r.registry.get n = some ref) (instance_ : r.heap[ref]? = some h) :
    r.handler n = some h := by
  rw [Registry.handler,found]
  exact instance_

theorem handlerNone (missing : r.registry.get n = none) : r.handler n = none := by
  rw [Registry.handler,missing]
  rfl

theorem initialCoherent : Coherent fnmatchcase initial := by
  refine ⟨⟨?_,?_⟩,?_,?_,?_,?_⟩
  · intro k; exact List.nodup_nil
  · intro j k x member; simp [initial,Buckets.bucket,Dict.getEmpty] at member
  · intro k b found; simp [initial,Dict.getEmpty] at found
  · intro n; simp [initial,Registry.activeNames,Buckets.order,Dict.empty,Dict.keys,Buckets.descending]
  · intro n ref found; simp [initial,Dict.getEmpty] at found
  · intro event chain found; simp [initial,Dict.getEmpty] at found

theorem positionSound {b : List String} {x : ℚ × Nat} (found : positionIn n k b = some x) :
    x.1 = k ∧ b[x.2]? = some n := by
  unfold positionIn at found
  obtain ⟨i,at_,rfl⟩ := Option.map_eq_some_iff.mp found
  obtain ⟨bound,here,_⟩ := List.idxOf?_eq_some_iff.mp at_
  exact ⟨rfl,List.getElem?_eq_some_iff.mpr ⟨bound,here⟩⟩

theorem positionComplete {b : List String} (k : ℚ) (member : n ∈ b) :
    ∃ x, positionIn n k b = some x := by
  unfold positionIn
  cases found : b.idxOf? n with
  | none => exact absurd member (List.idxOf?_eq_none_iff.mp found)
  | some i => exact ⟨(k,i),rfl⟩

theorem findSound {x : ℚ × Nat} (found : findHandlerPosition r n p = some x) :
    (Buckets.bucket r.priorityBuckets x.1)[x.2]? = some n := by
  unfold findHandlerPosition at found
  split at found
  · obtain ⟨e,member,at_⟩ := List.exists_of_findSome?_eq_some found
    obtain ⟨key,here⟩ := positionSound at_
    rw [key,Buckets.bucketEntry _ e member]
    exact here
  · simp only [bind,Option.bind_eq_some_iff] at found
    obtain ⟨key,_,b,bucket,at_⟩ := found
    obtain ⟨same,here⟩ := positionSound at_
    rw [same,Buckets.bucketOf bucket]
    exact here

theorem bucketFilled {x : String} (member : x ∈ Buckets.bucket r.priorityBuckets k) :
    ∃ b, r.priorityBuckets.get k = some b ∧ x ∈ b := by
  unfold Buckets.bucket at member
  cases found : r.priorityBuckets.get k with
  | none => rw [found] at member; simp at member
  | some b => rw [found] at member; exact ⟨b,rfl,member⟩

theorem findComplete (member : n ∈ r.activeNames) (placed : Placed r.priorityBuckets n p) :
    ∃ x, findHandlerPosition r n p = some x := by
  unfold findHandlerPosition
  split
  · obtain ⟨key,inside⟩ := Buckets.memOrder.mp member
    obtain ⟨b,bucket,here⟩ := bucketFilled inside
    cases found : r.priorityBuckets.entries.findSome? (fun e => positionIn n e.1 e.2) with
    | some x => exact ⟨x,rfl⟩
    | none =>
      have nowhere := List.findSome?_eq_none_iff.mp found (key,b) (Dict.memEntry.mp bucket)
      obtain ⟨x,at_⟩ := positionComplete key here
      rw [at_] at nowhere
      contradiction
  · rename_i explicit
    have directed : ∃ key, p.key = some key ∧ n ∈ Buckets.bucket r.priorityBuckets key := by
      cases p with
      | none => exact absurd rfl explicit
      | number value text => exact placed
      | boolean b => exact placed
      | other typeName => exact placed
    obtain ⟨key,same,inside⟩ := directed
    obtain ⟨b,bucket,here⟩ := bucketFilled inside
    obtain ⟨x,at_⟩ := positionComplete key here
    exact ⟨x,by simp only [same,bucket,bind,Option.bind_some,at_]⟩

theorem eraseAt {l : List String} {i : Nat} (distinct : l.Nodup) (found : l[i]? = some n) :
    l.eraseIdx i = l.erase n := by
  obtain ⟨bound,here⟩ := List.getElem?_eq_some_iff.mp found
  have index : l.idxOf n = i := by
    rw [← here]
    exact distinct.idxOf_getElem i bound
  exact (List.erase_eq_eraseIdx_of_idxOf index).symm

/- Removal takes the name out of every bucket and leaves no bucket empty, provided
that the search goes by a bucket the name is in. -/
theorem removedPlaced (separate : Buckets.Separate r.priorityBuckets)
    (full : ∀ k b, r.priorityBuckets.get k = some b → b ≠ []) (active : n ∈ r.activeNames)
    (placed : Placed r.priorityBuckets n (getHandlerPriority r n)) :
    ∃ buckets, removeFromBucket r n = {r with priorityBuckets := buckets} ∧
      (∀ k, Buckets.bucket buckets k = (Buckets.bucket r.priorityBuckets k).erase n) ∧
      ∀ k b, buckets.get k = some b → b ≠ [] := by
  obtain ⟨x,position⟩ := findComplete active placed
  have here := findSound position
  have inside : n ∈ Buckets.bucket r.priorityBuckets x.1 := List.mem_of_getElem? here
  have shrunk := eraseAt (separate.each x.1) here
  have elsewhere : ∀ k, k ≠ x.1 → (Buckets.bucket r.priorityBuckets k).erase n =
      Buckets.bucket r.priorityBuckets k := by
    intro k different
    refine List.erase_of_not_mem ?_
    intro also
    exact different (separate.apart k x.1 n also inside)
  obtain ⟨key,i⟩ := x
  simp only [removeFromBucket,position,shrunk]
  split
  · rename_i empty
    refine ⟨_,rfl,?_,?_⟩
    · intro k
      rw [Buckets.bucketErase]
      split
      · rename_i same
        rw [same]
        exact (List.isEmpty_iff.mp empty).symm
      · rename_i different
        exact (elsewhere k different).symm
    · intro k b at_
      rw [Dict.getErase] at at_
      split at at_
      · contradiction
      · exact full k b at_
  · rename_i remaining
    refine ⟨_,rfl,?_,?_⟩
    · intro k
      rw [Buckets.bucketSet]
      split
      · rename_i same
        rw [same]
      · rename_i different
        exact (elsewhere k different).symm
    · intro k b at_
      rw [Dict.getSet] at at_
      split at at_
      · cases Option.some.inj at_
        intro empty
        exact remaining (List.isEmpty_iff.mpr empty)
      · exact full k b at_

theorem removed (coherent : Coherent fnmatchcase r) (found : r.registry.get n = some ref) :
    ∃ buckets, removeFromBucket r n = {r with priorityBuckets := buckets} ∧
      (∀ k, Buckets.bucket buckets k = (Buckets.bucket r.priorityBuckets k).erase n) ∧
      ∀ k b, buckets.get k = some b → b ≠ [] := by
  obtain ⟨h,there,entry⟩ := coherent.known n ref found
  refine removedPlaced coherent.separate coherent.filled ((coherent.names n).mpr (Dict.keyOf found)) ?_
  rw [getHandlerPriority,handlerOf found there]
  exact entry.placed

/- The filter of one event is the same over two registries whose handlers accept
it alike and whose buckets differ only by names that do not. -/
theorem freshSame (alike : ∀ m, selects fnmatchcase s event m = selects fnmatchcase r event m)
    (buckets : ∀ k, (Buckets.bucket s.priorityBuckets k).filter (selects fnmatchcase r event) =
      (Buckets.bucket r.priorityBuckets k).filter (selects fnmatchcase r event)) :
    fresh fnmatchcase s event = fresh fnmatchcase r event := by
  have same : selects fnmatchcase s event = selects fnmatchcase r event := funext alike
  rw [fresh,same]
  exact Buckets.orderFilter _ buckets

theorem selectsOf (found : r.registry.get n = some ref) (instance_ : r.heap[ref]? = some h) :
    selects fnmatchcase r event n = accepts fnmatchcase h event := by
  rw [selects,handlerOf found instance_]

theorem selectsNone (missing : r.registry.get n = none) :
    selects fnmatchcase r event n = false := by
  rw [selects,handlerNone missing]

theorem filterErase {l : List String} {f : String → Bool} (distinct : l.Nodup) (away : f n = false) :
    (l.erase n).filter f = l.filter f := by
  rw [distinct.erase_eq_filter,List.filter_filter]
  refine List.filter_congr ?_
  intro m _
  by_cases same : m = n
  · simp [same,away]
  · simp [same]

/- What taking the name `n` out of the registry leaves. -/
structure Removed (fnmatchcase : String → String → Bool) (r s : Registry) (n : String) : Prop where
  heap : s.heap = r.heap
  order : s.registerOrder = r.registerOrder
  registry : ∀ m, s.registry.get m = if m = n then none else r.registry.get m
  buckets : ∀ k, Buckets.bucket s.priorityBuckets k = (Buckets.bucket r.priorityBuckets k).erase n
  coherent : Coherent fnmatchcase s

theorem placedWithout (different : m ≠ n) (placed : Placed r.priorityBuckets m p)
    (buckets : ∀ k, Buckets.bucket s.priorityBuckets k =
      (Buckets.bucket r.priorityBuckets k).erase n) : Placed s.priorityBuckets m p := by
  cases p with
  | none => trivial
  | number value text =>
    obtain ⟨key,same,inside⟩ := placed
    exact ⟨key,same,by rw [buckets]; exact (List.mem_erase_of_ne different).mpr inside⟩
  | boolean b =>
    obtain ⟨key,same,inside⟩ := placed
    exact ⟨key,same,by rw [buckets]; exact (List.mem_erase_of_ne different).mpr inside⟩
  | other typeName =>
    obtain ⟨key,same,inside⟩ := placed
    exact ⟨key,same,by rw [buckets]; exact (List.mem_erase_of_ne different).mpr inside⟩

theorem removedCoherent (coherent : Coherent fnmatchcase r) (found : r.registry.get n = some ref)
    (instance_ : r.heap[ref]? = some h) (heap : s.heap = r.heap)
    (registry : ∀ m, s.registry.get m = if m = n then none else r.registry.get m)
    (buckets : ∀ k, Buckets.bucket s.priorityBuckets k =
      (Buckets.bucket r.priorityBuckets k).erase n)
    (filled : ∀ k b, s.priorityBuckets.get k = some b → b ≠ [])
    (cached : ∀ event, s.cachedChain.get event =
      if accepts fnmatchcase h event then none else r.cachedChain.get event) :
    Coherent fnmatchcase s := by
  have distinct := coherent.separate.each
  have stays : ∀ k m, m ∈ Buckets.bucket s.priorityBuckets k ↔
      m ≠ n ∧ m ∈ Buckets.bucket r.priorityBuckets k := by
    intro k m
    rw [buckets]
    exact (distinct k).mem_erase_iff
  refine ⟨⟨?_,?_⟩,filled,?_,?_,?_⟩
  · intro k
    rw [buckets]
    exact (distinct k).erase n
  · intro j k x left right
    exact coherent.separate.apart j k x ((stays j x).mp left).2 ((stays k x).mp right).2
  · intro m
    have before := coherent.names m
    rw [Registry.activeNames,Buckets.memOrder] at before ⊢
    rw [← Dict.getIsSome] at before ⊢
    rw [registry]
    by_cases same : m = n
    · simp [same,stays]
    · simp only [same,if_false,← before,stays,ne_eq,not_false_eq_true,true_and]
  · intro m ref' at_
    rw [registry] at at_
    split at at_
    · contradiction
    · rename_i different
      obtain ⟨h',there,entry⟩ := coherent.known m ref' at_
      exact ⟨h',by rw [heap]; exact there,entry.name,entry.normal,
        placedWithout different entry.placed buckets⟩
  · intro event chain at_
    rw [cached] at at_
    split at at_
    · contradiction
    · rename_i rejects
      have away : selects fnmatchcase r event n = false := by
        rw [selectsOf found instance_]
        simpa using rejects
      have same := coherent.cached event chain at_
      rw [same]
      refine (freshSame ?_ ?_).symm
      · intro m
        simp only [selects,Registry.handler,registry,heap]
        by_cases equal : m = n
        · subst equal
          simp only [if_true,Option.bind_none]
          simp only [selects,Registry.handler] at away
          exact away.symm
        · simp only [equal,if_false]
      · intro k
        rw [buckets]
        exact filterErase (distinct k) away

theorem erasedRegistry (r : Registry) (n m : String) :
    (r.registry.erase n).get m = if m = n then none else r.registry.get m :=
  Dict.getErase _ _ _

theorem unregisterRemoves (coherent : Coherent fnmatchcase r) (found : r.registry.get n = some ref)
    (missingOk : Bool) :
    ∃ s, unregisterHandler fnmatchcase r n missingOk = .ok s ∧ Removed fnmatchcase r s n := by
  obtain ⟨h,instance_,entry⟩ := coherent.known n ref found
  obtain ⟨cache,expired,cached⟩ := @invalidated fnmatchcase _ entry.normal r
  let expiredRegistry : Registry := {r with cachedChain := cache}
  have kept : Coherent fnmatchcase expiredRegistry := by
    refine ⟨coherent.separate,coherent.filled,coherent.names,coherent.known,?_⟩
    intro event chain at_
    rw [cached] at at_
    split at at_
    · contradiction
    · exact coherent.cached event chain at_
  obtain ⟨buckets,taken,erased,filled⟩ := removed kept found
  let s : Registry := {r with
    cachedChain := cache, priorityBuckets := buckets, registry := r.registry.erase n}
  refine ⟨s,?_,rfl,rfl,erasedRegistry r n,erased,?_⟩
  · simp only [unregisterHandler,handlerOf found instance_,expired,bind,Except.bind,pure,Except.pure]
    rw [taken]
  · exact removedCoherent coherent found instance_ rfl (erasedRegistry r n) erased filled cached

theorem unregisterNothing (missing : r.registry.get n = none) (missingOk : Bool) :
    unregisterHandler fnmatchcase r n missingOk =
      if missingOk then .ok r else .error (notRegistered n) := by
  simp only [unregisterHandler,handlerNone missing]
  cases missingOk <;> rfl

theorem removedNothing (coherent : Coherent fnmatchcase r) (missing : r.registry.get n = none) :
    Removed fnmatchcase r r n := by
  refine ⟨rfl,rfl,?_,?_,coherent⟩
  · intro m
    split
    · rename_i same
      rw [same,missing]
    · rfl
  · intro k
    refine (List.erase_of_not_mem ?_).symm
    intro inside
    have registered := (coherent.names n).mp (Buckets.memOrder.mpr ⟨k,inside⟩)
    exact Dict.getNone.mp missing registered

theorem unregisterCases (coherent : Coherent fnmatchcase r) (n : String) (missingOk : Bool) :
    (∃ s, unregisterHandler fnmatchcase r n missingOk = .ok s ∧ Removed fnmatchcase r s n) ∨
    (missingOk = false ∧ unregisterHandler fnmatchcase r n missingOk = .error (notRegistered n)) := by
  cases found : r.registry.get n with
  | some ref => exact .inl (unregisterRemoves coherent found missingOk)
  | none =>
    cases missingOk with
    | true => exact .inl ⟨r,unregisterNothing found true,removedNothing coherent found⟩
    | false => exact .inr ⟨rfl,unregisterNothing found false⟩

theorem insertPerm (b : List String) (i : Nat) (n : String) : (insertAt b i n).Perm (n :: b) := by
  have moved : (insertAt b i n).Perm (n :: (b.take i ++ b.drop i)) := List.perm_middle
  rwa [List.take_append_drop] at moved

theorem filterInsert {f : String → Bool} (b : List String) (i : Nat) (away : f n = false) :
    (insertAt b i n).filter f = b.filter f := by
  rw [insertAt,List.filter_append,List.filter_cons_of_neg (by simp [away]),← List.filter_append,
    List.take_append_drop]

/- What entering the name `n` at `ref` into the bucket `k` leaves. -/
structure Entered (fnmatchcase : String → String → Bool) (s t : Registry) (n : String) (ref : Nat)
    (next : Handler) (k : ℚ) (i : Nat) : Prop where
  heap : t.heap = s.heap.set ref next
  registry : ∀ m, t.registry.get m = if m = n then some ref else s.registry.get m
  buckets : ∀ j, Buckets.bucket t.priorityBuckets j =
    if j = k then insertAt (Buckets.bucket s.priorityBuckets k) i n
    else Buckets.bucket s.priorityBuckets j
  filled : ∀ j b, t.priorityBuckets.get j = some b → b ≠ []
  cached : ∀ event, t.cachedChain.get event =
    if accepts fnmatchcase next event then none else s.cachedChain.get event

def Fitting (next : Handler) (k : ℚ) : Prop := next.priority = .none ∨ next.priority.key = some k

theorem placedFit {buckets : Dict ℚ (List String)} (fits : p = .none ∨ p.key = some k)
    (inside : n ∈ Buckets.bucket buckets k) : Placed buckets n p := by
  cases p with
  | none => trivial
  | number value text => exact ⟨k,fits.resolve_left (by simp),inside⟩
  | boolean b => exact ⟨k,fits.resolve_left (by simp),inside⟩
  | other typeName => exact ⟨k,fits.resolve_left (by simp),inside⟩

theorem placedMore {buckets more : Dict ℚ (List String)} (placed : Placed buckets m p)
    (grown : ∀ j, m ∈ Buckets.bucket buckets j → m ∈ Buckets.bucket more j) : Placed more m p := by
  cases p with
  | none => trivial
  | number value text =>
    obtain ⟨key,same,inside⟩ := placed
    exact ⟨key,same,grown key inside⟩
  | boolean b =>
    obtain ⟨key,same,inside⟩ := placed
    exact ⟨key,same,grown key inside⟩
  | other typeName =>
    obtain ⟨key,same,inside⟩ := placed
    exact ⟨key,same,grown key inside⟩

theorem enteredCoherent {next : Handler} {i : Nat} (coherent : Coherent fnmatchcase s)
    (missing : s.registry.get n = none) (instance_ : s.heap[ref]? = some entry) (name : entry.name = n)
    (named : next.name = n) (normal : Normal next) (fits : Fitting next k)
    (entered : Entered fnmatchcase s t n ref next k i) : Coherent fnmatchcase t := by
  have away : ∀ j, n ∉ Buckets.bucket s.priorityBuckets j := by
    intro j inside
    have registered := (coherent.names n).mp (Buckets.memOrder.mpr ⟨j,inside⟩)
    exact Dict.getNone.mp missing registered
  have holds : ∀ j m, m ∈ Buckets.bucket t.priorityBuckets j ↔
      (m = n ∧ j = k) ∨ m ∈ Buckets.bucket s.priorityBuckets j := by
    intro j m
    rw [entered.buckets]
    split
    · rename_i same
      rw [(insertPerm _ _ _).mem_iff,List.mem_cons,same]
      simp
    · rename_i different
      simp [different]
  -- handlers of other names are where they were, since an instance has one name
  have others : ∀ m ref' h', s.registry.get m = some ref' → s.heap[ref']? = some h' → h'.name = m →
      m ≠ n → t.heap[ref']? = some h' := by
    intro m ref' h' _ there called different
    rw [entered.heap]
    rw [Slots.setOther]
    · exact there
    · intro same
      subst same
      cases Option.some.inj (instance_.symm.trans there)
      exact different (called.symm.trans name)
  have mine : t.heap[ref]? = some next := by rw [entered.heap]; exact Slots.setSame instance_
  refine ⟨⟨?_,?_⟩,entered.filled,?_,?_,?_⟩
  · intro j
    rw [entered.buckets]
    split
    · refine (insertPerm _ _ _).nodup_iff.mpr (List.nodup_cons.mpr ⟨away k,?_⟩)
      exact coherent.separate.each k
    · exact coherent.separate.each j
  · intro j j' x left right
    rcases (holds j x).mp left with ⟨rfl,rfl⟩ | old
    · rcases (holds j' x).mp right with ⟨_,rfl⟩ | old'
      · rfl
      · exact absurd old' (away j')
    · rcases (holds j' x).mp right with ⟨rfl,_⟩ | old'
      · exact absurd old (away j)
      · exact coherent.separate.apart j j' x old old'
  · intro m
    have before := coherent.names m
    rw [Registry.activeNames,Buckets.memOrder] at before ⊢
    rw [← Dict.getIsSome] at before ⊢
    rw [entered.registry]
    by_cases same : m = n
    · simp [same,holds]
    · simp only [same,if_false,← before,holds,false_and,false_or]
  · intro m ref' at_
    rw [entered.registry] at at_
    split at at_
    · rename_i same
      cases Option.some.inj at_
      subst same
      exact ⟨next,mine,named,normal,placedFit fits ((holds k _).mpr (.inl ⟨rfl,rfl⟩))⟩
    · rename_i different
      obtain ⟨h',there,known⟩ := coherent.known m ref' at_
      refine ⟨h',others m ref' h' at_ there known.name different,known.name,known.normal,?_⟩
      exact placedMore known.placed (fun j inside => (holds j m).mpr (.inr inside))
  · intro event chain at_
    rw [entered.cached] at at_
    split at at_
    · contradiction
    · rename_i rejects
      have newName : selects fnmatchcase t event n = false := by
        rw [selectsOf (by rw [entered.registry,if_pos rfl]) mine]
        simpa using rejects
      have oldName : selects fnmatchcase s event n = false := selectsNone missing
      rw [coherent.cached event chain at_]
      refine (freshSame ?_ ?_).symm
      · intro m
        by_cases same : m = n
        · rw [same,newName,oldName]
        · cases found : s.registry.get m with
          | none =>
            rw [selectsNone found,selectsNone (by rw [entered.registry,if_neg same]; exact found)]
          | some ref' =>
            obtain ⟨h',there,known⟩ := coherent.known m ref' found
            rw [selectsOf found there,selectsOf (by rw [entered.registry,if_neg same]; exact found)
              (others m ref' h' found there known.name same)]
      · intro j
        rw [entered.buckets]
        split
        · rename_i same
          rw [same]
          exact filterInsert _ _ oldName
        · rfl

/- A boundary whose name is in the bucket `k` and is not the new name. -/
def Bound (r : Registry) (n : String) (k : ℚ) (slot : Slot) : Prop :=
  ∃ name, slot = .text name ∧ name ≠ n ∧ name ∈ Buckets.bucket r.priorityBuckets k

theorem boundaryFound {slot : Slot} {x : ℚ × Nat} (found : boundaryPosition r slot = .ok (some x))
    (other : (slot == .text n) = false) : Bound r n x.1 slot := by
  unfold boundaryPosition at found
  split at found
  · rename_i name
    split at found
    · contradiction
    · rename_i y at_
      cases found
      refine ⟨name,rfl,?_,List.mem_of_getElem? (findSound at_)⟩
      intro same
      simp [same] at other
  · cases found

theorem boundaryNone {slot : Slot} (found : boundaryPosition r slot = .ok none)
    (shaped : slot.malformed = false) : slot = .none := by
  unfold boundaryPosition at found
  split at found
  · split at found <;> cases found
  · rename_i shape
    cases slot with
    | none => rfl
    | text name => exact absurd rfl (shape name)
    | other => contradiction

theorem betweenValid {between : Between} (valid : validateBetweenHandlers r n between = .ok k) :
    ∃ left right, between = .pair left right ∧
      (Bound r n k right ∨ (right = .none ∧ Bound r n k left)) := by
  unfold validateBetweenHandlers at valid
  split at valid
  · rename_i left right
    refine ⟨left,right,rfl,?_⟩
    simp only [bindOk,raiseIfOk,exists_const,Bool.or_eq_false_iff] at valid
    obtain ⟨_,⟨leftShape,rightShape⟩,_,⟨leftOther,rightOther⟩,leftAt,foundLeft,rightAt,foundRight,last⟩ := valid
    cases rightAt with
    | some y =>
      have bound := boundaryFound foundRight rightOther
      cases leftAt with
      | some x =>
        simp only [bindOk,raiseIfOk,exists_const] at last
        cases last.2
        exact .inl bound
      | none =>
        cases last
        exact .inl bound
    | none =>
      have nothing := boundaryNone foundRight rightShape
      cases leftAt with
      | some x =>
        have bound := boundaryFound foundLeft leftOther
        cases last
        exact .inr ⟨nothing,bound⟩
      | none => cases last
  · cases valid

theorem numericKey {p : Priority} (valid : numericPriority p = .ok k) : p.key = some k := by
  unfold numericPriority at valid
  split at valid
  · cases valid; rfl
  · cases valid
  · cases valid
  · cases valid

theorem checkedPlace {existOk : Bool} {plan : Plan} (checked : checkEntry r entry existOk = .ok plan) :
    (entry.betweenHandlers = .none ∧ entry.priority.key = some plan.bucketPriority) ∨
    (entry.priority = .none ∧ ∃ left right, entry.betweenHandlers = .pair left right ∧
      (Bound r entry.name plan.bucketPriority right ∨
        (right = .none ∧ Bound r entry.name plan.bucketPriority left))) := by
  unfold checkEntry at checked
  simp only [bindOk,raiseIfOk,exists_const] at checked
  obtain ⟨_,_,_,_,_,_,_,together,subscriptions,_,filters,_,key,place,last⟩ := checked
  cases last
  unfold bucketPriority at place
  split at place
  · rename_i nothing
    exact .inl ⟨nothing,numericKey place⟩
  · rename_i explicit
    refine .inr ⟨?_,betweenValid place⟩
    have between : (entry.betweenHandlers != .none) = true := by
      simpa using explicit
    simpa [between] using together

theorem indexFound {b : List String} {name : String} (member : name ∈ b) :
    ∃ i, indexOf b name = .ok i := by
  unfold indexOf
  cases found : b.idxOf? name with
  | none => exact absurd member (List.idxOf?_eq_none_iff.mp found)
  | some i => exact ⟨i,rfl⟩

theorem indexKept {existOk : Bool} {plan : Plan} (checked : checkEntry r entry existOk = .ok plan)
    (stays : ∀ name, name ≠ entry.name → name ∈ Buckets.bucket r.priorityBuckets plan.bucketPriority →
      name ∈ Buckets.bucket s.priorityBuckets plan.bucketPriority) :
    ∃ i, insertIndex (Buckets.bucket s.priorityBuckets plan.bucketPriority)
      entry.betweenHandlers = .ok i := by
  rcases checkedPlace checked with ⟨nothing,_⟩ | ⟨_,left,right,pair,bound⟩
  · rw [nothing]
    exact ⟨_,rfl⟩
  · rw [pair]
    rcases bound with ⟨name,rfl,other,inside⟩ | ⟨rfl,name,rfl,other,inside⟩
    · exact indexFound (stays name other inside)
    · obtain ⟨i,found⟩ := indexFound (stays name other inside)
      exact ⟨i + 1,by simp only [insertIndex,found,bind,Except.bind,pure,Except.pure]⟩

/- What a successful `register_handler` has gone through in any registry. -/
structure Committed (fnmatchcase : String → String → Bool) (r t : Registry) (ref : Nat)
    (entry : Handler) (plan : Plan) (s : Registry) (i : Nat) : Prop where
  checked : ∃ existOk, checkEntry r entry existOk = .ok plan
  taken : unregisterHandler fnmatchcase r entry.name true = .ok s
  index : insertIndex (Buckets.bucket s.priorityBuckets plan.bucketPriority) entry.betweenHandlers = .ok i
  heap : t.heap = s.heap.set ref (entry.admitted plan s.registerOrder)
  registry : ∀ m, t.registry.get m = if m = entry.name then some ref else s.registry.get m
  buckets : t.priorityBuckets = (s.priorityBuckets.set plan.bucketPriority
    (Buckets.bucket s.priorityBuckets plan.bucketPriority)).set plan.bucketPriority
      (insertAt (Buckets.bucket s.priorityBuckets plan.bucketPriority) i entry.name)
  cached : ∀ event, t.cachedChain.get event =
    if accepts fnmatchcase (entry.admitted plan s.registerOrder) event then none
    else s.cachedChain.get event

theorem admittedNormal (entry : Handler) (plan : Plan) (order : Nat) :
    Normal (entry.admitted plan order) := ⟨plan.subscriptions,plan.filters,rfl,rfl⟩

theorem registerCommits {existOk : Bool} {plan : Plan} {i : Nat} (there : r.heap[ref]? = some entry)
    (checked : checkEntry r entry existOk = .ok plan)
    (taken : unregisterHandler fnmatchcase r entry.name true = .ok s)
    (index : insertIndex (Buckets.bucket s.priorityBuckets plan.bucketPriority) entry.betweenHandlers = .ok i) :
    ∃ t, registerHandler fnmatchcase r ref existOk = .ok t ∧
      Committed fnmatchcase r t ref entry plan s i := by
  let placed : Registry := {s with
    heap := s.heap.set ref (entry.admitted plan s.registerOrder)
    registry := s.registry.set entry.name ref
    priorityBuckets :=
      (s.priorityBuckets.set plan.bucketPriority
        (Buckets.bucket s.priorityBuckets plan.bucketPriority)).set plan.bucketPriority
        (insertAt (Buckets.bucket s.priorityBuckets plan.bucketPriority) i entry.name)}
  obtain ⟨cache,expired,cached⟩ :=
    @invalidated fnmatchcase _ (admittedNormal entry plan s.registerOrder) placed
  let t : Registry := {placed with cachedChain := cache, registerOrder := s.registerOrder + 1}
  refine ⟨t,?_,⟨⟨existOk,checked⟩,taken,index,rfl,fun m => Dict.getSet _ _ m _,rfl,cached⟩⟩
  simp only [registerHandler,there,checked,taken,PyError.leavingReturned,bind,Except.bind,index,
    pure,Except.pure]
  rw [expired]
  rfl

theorem committedBuckets {plan : Plan} {i : Nat} (committed : Committed fnmatchcase r t ref entry plan s i)
    (j : ℚ) : Buckets.bucket t.priorityBuckets j =
      if j = plan.bucketPriority
      then insertAt (Buckets.bucket s.priorityBuckets plan.bucketPriority) i entry.name
      else Buckets.bucket s.priorityBuckets j := by
  rw [committed.buckets,Buckets.bucketSet,Buckets.bucketSet]
  split <;> rfl

theorem committedEntered {plan : Plan} {i : Nat} (committed : Committed fnmatchcase r t ref entry plan s i)
    (full : ∀ j b, s.priorityBuckets.get j = some b → b ≠ []) :
    Entered fnmatchcase s t entry.name ref (entry.admitted plan s.registerOrder) plan.bucketPriority i := by
  refine ⟨committed.heap,committed.registry,committedBuckets committed,?_,committed.cached⟩
  intro j b at_
  rw [committed.buckets,Dict.getSet,Dict.getSet] at at_
  split at at_
  · cases Option.some.inj at_
    simp [insertAt]
  · exact full j b at_

theorem checkedFits {existOk : Bool} {plan : Plan} (checked : checkEntry r entry existOk = .ok plan)
    (order : Nat) : Fitting (entry.admitted plan order) plan.bucketPriority := by
  rcases checkedPlace checked with ⟨_,key⟩ | ⟨nothing,_⟩
  · exact .inr key
  · exact .inl nothing

/- What a successful `register_handler` leaves: the name is taken out and entered again. -/
structure Registered (fnmatchcase : String → String → Bool) (r t : Registry) (ref : Nat)
    (entry : Handler) : Prop where
  intro ::
  moved : ∃ (s : Registry) (plan : Plan) (i : Nat), Removed fnmatchcase r s entry.name ∧
    Entered fnmatchcase s t entry.name ref (entry.admitted plan s.registerOrder) plan.bucketPriority i
  coherent : Coherent fnmatchcase t

theorem registerCases (coherent : Coherent fnmatchcase r) (instance_ : r.heap[ref]? = some entry)
    (existOk : Bool) :
    (∃ error, registerHandler fnmatchcase r ref existOk = .error (error,r)) ∨
    ∃ t, registerHandler fnmatchcase r ref existOk = .ok t ∧ Registered fnmatchcase r t ref entry := by
  cases checked : checkEntry r entry existOk with
  | error error =>
    refine .inl ⟨error,?_⟩
    simp only [registerHandler,instance_,checked,PyError.leavingRaised,bind,Except.bind]
  | ok plan =>
    rcases unregisterCases coherent entry.name true with ⟨s,taken,without⟩ | ⟨impossible,_⟩
    · have stays : ∀ name, name ≠ entry.name → name ∈ Buckets.bucket r.priorityBuckets plan.bucketPriority →
          name ∈ Buckets.bucket s.priorityBuckets plan.bucketPriority := by
        intro name other inside
        rw [without.buckets]
        exact (List.mem_erase_of_ne other).mpr inside
      obtain ⟨i,index⟩ := indexKept checked stays
      obtain ⟨t,registers,committed⟩ := registerCommits instance_ checked taken index
      have entered := committedEntered committed without.coherent.filled
      have missing : s.registry.get entry.name = none := by rw [without.registry,if_pos rfl]
      have there : s.heap[ref]? = some entry := by rw [without.heap]; exact instance_
      let next := entry.admitted plan s.registerOrder
      exact .inr ⟨t,registers,⟨s,plan,i,without,entered⟩,enteredCoherent without.coherent missing there rfl
        (rfl : next.name = entry.name) (admittedNormal entry plan s.registerOrder) (checkedFits checked _) entered⟩
    · contradiction

theorem sameHandlers (coherent : Coherent fnmatchcase r)
    (buckets : t.priorityBuckets = r.priorityBuckets)
    (cache : ∀ event chain, t.cachedChain.get event = some chain → r.cachedChain.get event = some chain)
    (keys : ∀ m, m ∈ t.registry.keys ↔ m ∈ r.registry.keys)
    (handlers : ∀ m, t.handler m = r.handler m) : Coherent fnmatchcase t := by
  refine ⟨by rw [buckets]; exact coherent.separate,by rw [buckets]; exact coherent.filled,?_,?_,?_⟩
  · intro m
    rw [keys,← coherent.names,Registry.activeNames,Registry.activeNames,buckets]
  · intro m ref' at_
    have registered := (keys m).mp (Dict.keyOf at_)
    obtain ⟨old,before⟩ := Option.isSome_iff_exists.mp (Dict.getIsSome.mpr registered)
    obtain ⟨h,there,entry⟩ := coherent.known m old before
    have same := handlers m
    rw [handlerOf before there,Registry.handler,at_] at same
    exact ⟨h,same,by rw [buckets]; exact entry⟩
  · intro event chain at_
    rw [coherent.cached event chain (cache event chain at_)]
    refine (freshSame ?_ ?_).symm
    · intro m
      rw [selects,selects,handlers]
    · intro k
      rw [buckets]

theorem handlerKeys (coherent : Coherent fnmatchcase r) (h' : Handler) (m : String) :
    ({r with heap := r.heap ++ [h']}).handler m = r.handler m := by
  unfold Registry.handler
  cases found : r.registry.get m with
  | none => rfl
  | some ref =>
    obtain ⟨h,there,_⟩ := coherent.known m ref found
    simp only [Option.bind_some,there]
    exact Slots.appendOld there

theorem allocatedCoherent (coherent : Coherent fnmatchcase r) (h' : Handler) :
    Coherent fnmatchcase {r with heap := r.heap ++ [h']} :=
  sameHandlers coherent rfl (fun _ _ at_ => at_) (fun _ => Iff.rfl) (handlerKeys coherent h')

theorem swappedCoherent {new : Nat} {next func : Handler} (coherent : Coherent fnmatchcase s)
    (mine : s.registry.get func.name = some new) (copy : s.heap[new]? = some next)
    (original : s.heap[ref]? = some func) :
    Coherent fnmatchcase
      {s with heap := s.heap.set ref next, registry := s.registry.set func.name ref} := by
  refine sameHandlers coherent rfl (fun _ _ at_ => at_) ?_ ?_
  · intro m
    rw [Dict.memKeysSet]
    constructor
    · intro member
      rcases member with rfl | old
      · exact Dict.keyOf mine
      · exact old
    · exact .inr
  · intro m
    by_cases same : m = func.name
    · subst same
      rw [handlerOf mine copy]
      exact handlerOf (Dict.getSetSame _ _ _) (Slots.setSame original)
    · unfold Registry.handler
      rw [Dict.getSetOther same]
      cases found : s.registry.get m with
      | none => rfl
      | some ref' =>
        obtain ⟨h,there,entry⟩ := coherent.known m ref' found
        refine Slots.setOther ?_
        intro equal
        subst equal
        cases Option.some.inj (original.symm.trans there)
        exact same entry.name.symm

theorem registeredHandler (registered : Registered fnmatchcase r t ref entry)
    (instance_ : r.heap[ref]? = some entry) :
    ∃ next, t.registry.get entry.name = some ref ∧ t.heap[ref]? = some next := by
  obtain ⟨s,plan,i,without,entered⟩ := registered.moved
  refine ⟨entry.admitted plan s.registerOrder,by rw [entered.registry,if_pos rfl],?_⟩
  rw [entered.heap,without.heap]
  exact Slots.setSame instance_

/- What an operation does to a coherent registry: it raises and only the heap may
have grown, or it leaves a coherent one. -/
def Keeps (fnmatchcase : String → String → Bool) (outcome : Outcome) : Prop :=
  Coherent fnmatchcase (stateOf outcome)

theorem registerKeeps (coherent : Coherent fnmatchcase r) (ref : Nat) (existOk : Bool) :
    Keeps fnmatchcase (registerHandler fnmatchcase r ref existOk) := by
  cases instance_ : r.heap[ref]? with
  | none =>
    unfold Keeps registerHandler
    simp only [instance_]
    exact coherent
  | some entry =>
    rcases registerCases coherent instance_ existOk with ⟨error,raised⟩ | ⟨t,done,registered⟩
    · rw [Keeps,raised]
      exact coherent
    · rw [Keeps,done]
      exact registered.coherent

theorem leavingKeeps {x : Except PyError Registry} (coherent : Coherent fnmatchcase r)
    (good : ∀ s, x = .ok s → Coherent fnmatchcase s) : Keeps fnmatchcase (leaving r x) := by
  cases x with
  | error error => exact coherent
  | ok s => exact good s rfl

theorem unregisterKeeps (coherent : Coherent fnmatchcase r) (n : String) (missingOk : Bool) :
    Keeps fnmatchcase (leaving r (unregisterHandler fnmatchcase r n missingOk)) := by
  refine leavingKeeps coherent ?_
  intro s done
  rcases unregisterCases coherent n missingOk with ⟨s',taken,without⟩ | ⟨_,raised⟩
  · rw [taken] at done
    cases done
    exact without.coherent
  · rw [raised] at done
    contradiction

theorem subscribeKeeps (coherent : Coherent fnmatchcase r) (options : Options) (subject : Subject) :
    Keeps fnmatchcase (subscribe fnmatchcase r options subject) := by
  unfold subscribe
  cases range : checkRange options.priority with
  | error error => exact coherent
  | ok u =>
    simp only [PyError.leavingReturned,bind,Except.bind]
    cases subject with
    | nameless => exact coherent
    | function name callback =>
      cases callback with
      | none => exact coherent
      | uncallable => exact coherent
      | function id => exact registerKeeps (allocatedCoherent coherent _) _ _
    | «instance» ref =>
      simp only
      cases original : r.heap[ref]? with
      | none => exact coherent
      | some func =>
        simp only
        have grown := allocatedCoherent coherent (func.staged options)
        have copy : ({r with heap := r.heap ++ [func.staged options]}).heap[r.heap.length]? =
            some (func.staged options) := Slots.appendNew
        rcases registerCases grown copy options.existOk with ⟨error,raised⟩ | ⟨t,done,registered⟩
        · rw [raised]
          exact grown
        · rw [done]
          obtain ⟨next,mine,there⟩ := registeredHandler registered copy
          obtain ⟨s,plan,i,without,entered⟩ := registered.moved
          have kept : t.heap[ref]? = some func := by
            rw [entered.heap,without.heap,Slots.setOther (Ne.symm (Nat.ne_of_lt (Slots.inside original)))]
            exact Slots.appendOld original
          have swapped := @swappedCoherent fnmatchcase _ _ _ _ func registered.coherent mine there kept
          simp only [there,Option.getD_some]
          exact swapped

theorem selectNamesCoherent (coherent : Coherent fnmatchcase r) (event : String) (l : List String) :
    selectNames fnmatchcase r event l = .ok (l.filter (selects fnmatchcase r event)) := by
  induction l with
  | nil => rfl
  | cons name rest ih =>
    simp only [selectNames,ih,bind,Except.bind,pure,Except.pure]
    cases found : r.registry.get name with
    | none =>
      have away := @selectsNone fnmatchcase _ _ event found
      simp only [handlerNone found,List.filter_cons,away]
    | some ref =>
      obtain ⟨h,there,entry⟩ := coherent.known name ref found
      have same := @selectsOf fnmatchcase _ _ event _ _ found there
      simp only [handlerOf found there,matchesNormal entry.normal,List.filter_cons,same]

theorem lookupRegistered (l : List String) (registered : ∀ m ∈ l, m ∈ r.registry.keys) :
    ∃ refs, lookupAll r l = .ok refs ∧ refs.map some = l.map r.registry.get := by
  induction l with
  | nil => exact ⟨[],rfl,rfl⟩
  | cons name rest ih =>
    obtain ⟨refs,found,same⟩ := ih (fun m member => registered m (List.mem_cons_of_mem _ member))
    have here := Dict.getIsSome.mpr (registered name List.mem_cons_self)
    obtain ⟨ref,at_⟩ := Option.isSome_iff_exists.mp here
    refine ⟨ref :: refs,?_,?_⟩
    · simp only [lookupAll,at_,found,bind,Except.bind,pure,Except.pure]
    · rw [List.map_cons,List.map_cons,same,at_]

theorem chainCases (coherent : Coherent fnmatchcase r) (event : String) :
    (event = "" ∧ ∃ error, getHandlersChainForEvent fnmatchcase r event = .error (error,r)) ∨
    (event ≠ "" ∧ ∃ t, getHandlersChainForEvent fnmatchcase r event = .ok (fresh fnmatchcase r event,t) ∧
      t.registry = r.registry ∧ t.heap = r.heap ∧ Coherent fnmatchcase t) := by
  by_cases nameless : event = ""
  · subst nameless
    exact .inl ⟨rfl,_,rfl⟩
  · refine .inr ⟨nameless,?_⟩
    have named : (event == "") = false := beq_eq_false_iff_ne.mpr nameless
    simp only [getHandlersChainForEvent,named,raiseIf,PyError.leavingReturned,bind,Except.bind,Bool.false_eq_true,
      if_false]
    cases found : r.cachedChain.get event with
    | some chain =>
      rw [← coherent.cached event chain found]
      exact ⟨r,rfl,rfl,rfl,coherent⟩
    | none =>
      have selected := selectNamesCoherent coherent event r.activeNames
      simp only [selected]
      refine ⟨_,rfl,rfl,rfl,⟨coherent.separate,coherent.filled,coherent.names,coherent.known,?_⟩⟩
      intro event' chain at_
      rw [Dict.getSet] at at_
      split at at_
      · rename_i same
        cases Option.some.inj at_
        rw [same]
        rfl
      · exact coherent.cached event' chain at_

theorem handlersCases (coherent : Coherent fnmatchcase r) (event : String) :
    (event = "" ∧ ∃ error, getHandlersForEvent fnmatchcase r event = .error (error,r)) ∨
    (event ≠ "" ∧ ∃ refs t, getHandlersForEvent fnmatchcase r event = .ok (refs,t) ∧
      refs.map some = (fresh fnmatchcase r event).map r.registry.get ∧
      t.registry = r.registry ∧ t.heap = r.heap ∧ Coherent fnmatchcase t) := by
  unfold getHandlersForEvent
  rcases chainCases coherent event with ⟨nameless,error,raised⟩ | ⟨named,t,found,registry,heap,kept⟩
  · exact .inl ⟨nameless,error,by simp only [raised,bind,Except.bind]⟩
  · have registered : ∀ m ∈ fresh fnmatchcase r event, m ∈ t.registry.keys := by
      intro m member
      rw [registry]
      exact (coherent.names m).mp (List.mem_filter.mp member).1
    obtain ⟨refs,looked,same⟩ := lookupRegistered _ registered
    refine .inr ⟨named,refs,t,?_,?_,registry,heap,kept⟩
    · simp only [found,looked,PyError.leavingReturned,bind,Except.bind,pure,Except.pure]
    · rw [same,registry]

theorem stepCoherent {a : Action} (coherent : Coherent fnmatchcase r)
    (taken : step fnmatchcase r a = some t) : Coherent fnmatchcase t := by
  cases Option.some.inj taken
  cases a with
  | create handler => exact allocatedCoherent coherent handler
  | subscribe options subject => exact subscribeKeeps coherent options subject
  | register ref options =>
    simp only [perform,register]
    split
    · exact coherent
    · exact subscribeKeeps coherent _ _
  | registerHandler ref existOk => exact registerKeeps coherent ref existOk
  | unsubscribe name missingOk => exact unregisterKeeps coherent name missingOk
  | unregister ref missingOk =>
    simp only [perform]
    split
    · exact coherent
    · exact unregisterKeeps coherent _ _
  | unregisterHandler name missingOk => exact unregisterKeeps coherent name missingOk
  | query event =>
    simp only [perform]
    rcases handlersCases coherent event with ⟨_,error,raised⟩ | ⟨_,refs,s,found,_,_,_,kept⟩
    · rw [raised]; exact coherent
    · rw [found]; exact kept
  | queryNames event =>
    simp only [perform]
    rcases chainCases coherent event with ⟨_,error,raised⟩ | ⟨_,s,found,_,_,kept⟩
    · rw [raised]; exact coherent
    · rw [found]; exact kept

theorem runCoherent {r : List Action}
    (ran : Machine.run (step fnmatchcase) initial r = some s) : Coherent fnmatchcase s :=
  Machine.invariant (fun _ _ _ => stepCoherent) initialCoherent ran

theorem registryCoherent {r : List Action} (ran : Machine.run (step fnmatchcase) initial r = some s) :
    (∀ n ∈ s.registry.keys, (Buckets.occurrences s.priorityBuckets).count n = 1) ∧
    (∀ e ∈ s.priorityBuckets.entries, e.2 ≠ [] ∧ ∀ n ∈ e.2, n ∈ s.registry.keys) ∧
    (∀ n ∈ s.registry.keys, ∃ h, s.handler n = some h ∧
      (h.priority ≠ .none →
        ∃ k, h.priority.key = some k ∧ n ∈ Buckets.bucket s.priorityBuckets k) ∧
      ∀ event, matchesHandler fnmatchcase h event = .ok (accepts fnmatchcase h event)) ∧
    (∀ event chain, s.cachedChain.get event = some chain → chain = fresh fnmatchcase s event) ∧
    (∀ event, event ≠ "" → ∃ refs t, getHandlersForEvent fnmatchcase s event = .ok (refs,t) ∧
      refs.map some = (fresh fnmatchcase s event).map s.registry.get) := by
  have coherent := runCoherent ran
  refine ⟨?_,?_,?_,coherent.cached,?_⟩
  · intro n registered
    exact Buckets.occurOnce coherent.separate ((coherent.names n).mpr registered)
  · intro e member
    refine ⟨coherent.filled e.1 e.2 (Dict.memEntry.mpr member),?_⟩
    intro n inside
    rw [← Buckets.bucketEntry _ e member] at inside
    exact (coherent.names n).mp (Buckets.memOrder.mpr ⟨e.1,inside⟩)
  · intro n registered
    obtain ⟨ref,found⟩ := Option.isSome_iff_exists.mp (Dict.getIsSome.mpr registered)
    obtain ⟨h,there,entry⟩ := coherent.known n ref found
    refine ⟨h,handlerOf found there,?_,fun event => matchesNormal entry.normal⟩
    intro explicit
    have placed := entry.placed
    cases priority : h.priority with
    | none => exact absurd priority explicit
    | number value text => rw [priority] at placed; exact placed
    | boolean b => rw [priority] at placed; exact placed
    | other typeName => rw [priority] at placed; exact placed
  · intro event named
    rcases handlersCases coherent event with ⟨nameless,_⟩ | ⟨_,refs,t,found,same,_⟩
    · exact absurd nameless named
    · exact ⟨refs,t,found,same⟩

def exactly (event pattern : String) : Bool := event == pattern

def one (names : List String) (p : Priority) (between : Between) : Options :=
  ⟨names.map .text,true,p,between,.none,none,none,none⟩

/- A name is cached, replaced by another instance between two others, and queried. -/
def replacement : List Action :=
  [.create (newHandler "audit" (.function 0)),
    .register 0 (one ["a","b"] (.number (.finite 5) "5") .none),
    .subscribe (one ["a"] .none .none) (.function "store" (.function 1)),
    .query "a",.query "b",
    .subscribe (one ["a"] .none (.pair .none (.text "store"))) (.function "audit" (.function 2)),
    .unsubscribe "missing" false,.query "a"]

def replaced : Registry := ((Machine.run (step exactly) initial replacement).getD initial)

theorem registryCoherentReplacement :
    (∀ n ∈ replaced.registry.keys, (Buckets.occurrences replaced.priorityBuckets).count n = 1) ∧
    (∀ e ∈ replaced.priorityBuckets.entries, e.2 ≠ [] ∧ ∀ n ∈ e.2, n ∈ replaced.registry.keys) ∧
    (∀ n ∈ replaced.registry.keys, ∃ h, replaced.handler n = some h ∧
      (h.priority ≠ .none →
        ∃ k, h.priority.key = some k ∧ n ∈ Buckets.bucket replaced.priorityBuckets k) ∧
      ∀ event, matchesHandler exactly h event = .ok (accepts exactly h event)) ∧
    (∀ event chain, replaced.cachedChain.get event = some chain →
      chain = fresh exactly replaced event) ∧
    (∀ event, event ≠ "" → ∃ refs t, getHandlersForEvent exactly replaced event = .ok (refs,t) ∧
      refs.map some = (fresh exactly replaced event).map replaced.registry.get) :=
  registryCoherent (r := replacement) rfl

example : fresh exactly replaced "a" = ["audit","store"] := by decide

end Apixis.ChainCache
