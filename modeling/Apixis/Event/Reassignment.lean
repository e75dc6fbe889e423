import Apixis.Event.Placement

/-! A live instance whose registration fields the caller assigns before it calls
`register_handler` on it again. The removal then goes by the new priority and the
invalidation by the new patterns, while the bucket entry and the caches were made
under the old ones. -/
namespace Apixis.Reassignment
open HandlerRegistry PyError ChainCache Registration Placement Precedence

variable {fnmatchcase : String → String → Bool} {r s t u : Registry} {n m event : String} {ref : Nat}
  {h entry : Handler} {plan : Plan} {k : ℚ} {missingOk : Bool} {chain : List String}

structure Fields where
  priority : Priority
  betweenHandlers : Between
  subscribe : Patterns
  filterEvent : Patterns
  deriving DecidableEq, Repr

def reassigned (h : Handler) (fields : Fields) : Handler :=
  {h with
    priority := fields.priority
    betweenHandlers := fields.betweenHandlers
    subscribe := fields.subscribe
    filterEvent := fields.filterEvent}

def assign (r : Registry) (ref : Nat) (h : Handler) : Registry := {r with heap := r.heap.set ref h}

/- The assignments, and `register_handler(h, exist_ok=True)` after them. -/
def reassign (fnmatchcase : String → String → Bool) (r : Registry) (ref : Nat) (h : Handler)
    (fields : Fields) : Outcome :=
  registerHandler fnmatchcase (assign r ref (reassigned h fields)) ref true

/- Whether the patterns select the event, once they are normalised. -/
def wanted (fnmatchcase : String → String → Bool) (h : Handler) (event : String) : Bool :=
  match normalisePatterns h.subscribe "subscribe", normaliseFilters h with
  | .ok subscriptions, .ok filters =>
      subscriptions.any (fnmatchcase event) && !filters.any (fnmatchcase event)
  | _, _ => false

/- The new priority names the old bucket, or there is none and boundaries place
the handler, and each cached chain that holds it is for an event that the new
patterns select, as they were assigned or normalised. -/
structure Fit (fnmatchcase : String → String → Bool) (r : Registry) (n : String) (h : Handler) : Prop where
  placed : Placed r.priorityBuckets n h.priority
  caches : ∀ event chain, r.cachedChain.get event = some chain → n ∈ chain →
    matchesHandler fnmatchcase h event = .ok true ∨ wanted fnmatchcase h event = true

structure Traceless (u : Registry) (n : String) : Prop where
  registry : u.registry.get n = none
  buckets : (Buckets.occurrences u.priorityBuckets).count n = 0
  caches : ∀ event chain, u.cachedChain.get event = some chain → n ∉ chain

structure Sound (fnmatchcase : String → String → Bool) (u : Registry) (n : String)
    (next : String → Bool) : Prop where
  once : (Buckets.occurrences u.priorityBuckets).count n = if (u.registry.get n).isSome then 1 else 0
  lookup : findHandlerPosition u n (getHandlerPriority u n) = findHandlerPosition u n .none
  chains : ∀ event chain s, getHandlersChainForEvent fnmatchcase u event = .ok (chain,s) →
    chain.count n ≤ 1 ∧ (n ∈ chain → (u.registry.get n).isSome ∧ next event = true)
  removal : ∃ s, unregisterHandler fnmatchcase u n true = .ok s ∧ Traceless s n

def further : Action → Bool
  | .query _ => true
  | .queryNames _ => true
  | .unsubscribe _ _ => true
  | .unregister _ _ => true
  | .unregisterHandler _ _ => true
  | _ => false

inductive Call where
  | plain (a : Action)
  | reassign (ref : Nat) (fields : Fields)
  deriving DecidableEq, Repr

def live (r : Registry) (ref : Nat) : Option Handler :=
  (r.heap[ref]?).bind (fun h => if r.registry.get h.name = some ref then some h else none)

/- A reassignment is a step if the registration after it succeeds. -/
def callStep (fnmatchcase : String → String → Bool) (r : Registry) : Call → Option Registry
  | .plain a => step fnmatchcase r a
  | .reassign ref fields => (live r ref).bind (fun h => (reassign fnmatchcase r ref h fields).toOption)

def Meets (fnmatchcase : String → String → Bool) (r : Registry) : Call → Prop
  | .plain _ => True
  | .reassign ref fields => ∀ h, live r ref = some h → Fit fnmatchcase r h.name (reassigned h fields)

theorem liveCases (found : live r ref = some h) :
    r.heap[ref]? = some h ∧ r.registry.get h.name = some ref := by
  simp only [live,Option.bind_eq_some_iff] at found
  obtain ⟨h',there,last⟩ := found
  split at last
  · cases Option.some.inj last
    exact ⟨there,by assumption⟩
  · contradiction

theorem selectedEvents {l names : List String} (selected : selectEvents fnmatchcase h l = .ok names) :
    event ∈ names ↔ event ∈ l ∧ matchesHandler fnmatchcase h event = .ok true := by
  induction l generalizing names with
  | nil =>
    cases selected
    simp
  | cons first rest ih =>
    simp only [selectEvents,bindOk] at selected
    obtain ⟨drop,matched,later,tail,last⟩ := selected
    have rest_ := ih tail
    cases last
    cases drop with
    | true =>
      simp only [if_true,List.mem_cons,rest_]
      constructor
      · rintro (rfl | ⟨inside,good⟩)
        · exact ⟨.inl rfl,matched⟩
        · exact ⟨.inr inside,good⟩
      · rintro ⟨rfl | inside,good⟩
        · exact .inl rfl
        · exact .inr ⟨inside,good⟩
    | false =>
      simp only [Bool.false_eq_true,if_false,List.mem_cons,rest_]
      constructor
      · rintro ⟨inside,good⟩
        exact ⟨.inr inside,good⟩
      · rintro ⟨rfl | inside,good⟩
        · rw [matched] at good
          cases good
        · exact ⟨inside,good⟩

theorem expiredChains (expired : invalidateMatchingChains fnmatchcase r h = .ok s) (event : String) :
    (matchesHandler fnmatchcase h event = .ok true ∧ s.cachedChain.get event = none) ∨
    (matchesHandler fnmatchcase h event ≠ .ok true ∧
      s.cachedChain.get event = r.cachedChain.get event) := by
  simp only [invalidateMatchingChains,bindOk] at expired
  obtain ⟨names,selected,last⟩ := expired
  have members := @selectedEvents fnmatchcase event _ _ _ selected
  cases last
  rw [eraseAll]
  by_cases matched : matchesHandler fnmatchcase h event = .ok true
  · refine .inl ⟨matched,?_⟩
    by_cases known : event ∈ r.cachedChain.keys
    · rw [if_pos (members.mpr ⟨known,matched⟩)]
    · rw [if_neg (fun inside => known (members.mp inside).1)]
      exact Dict.getNone.mpr known
  · refine .inr ⟨matched,?_⟩
    rw [if_neg (fun inside => matched (members.mp inside).2)]

theorem unregisterExactly (known : r.handler n = some h)
    (done : unregisterHandler fnmatchcase r n missingOk = .ok s) :
    s.heap = r.heap ∧ s.registry = r.registry.erase n ∧ s.registerOrder = r.registerOrder ∧
    s.priorityBuckets = (removeFromBucket r n).priorityBuckets ∧
    ∀ event, (matchesHandler fnmatchcase h event = .ok true ∧ s.cachedChain.get event = none) ∨
      (matchesHandler fnmatchcase h event ≠ .ok true ∧
        s.cachedChain.get event = r.cachedChain.get event) := by
  unfold unregisterHandler at done
  rw [known] at done
  simp only [bindOk] at done
  obtain ⟨e,expired,last⟩ := done
  obtain ⟨names,selected,same⟩ := bindOk.mp expired
  have kept := expiredChains expired
  cases last
  cases same
  unfold removeFromBucket at *
  have priority : getHandlerPriority
      {r with cachedChain := names.foldl Dict.erase r.cachedChain} n = getHandlerPriority r n := rfl
  have position : findHandlerPosition {r with cachedChain := names.foldl Dict.erase r.cachedChain} n
      (getHandlerPriority r n) = findHandlerPosition r n (getHandlerPriority r n) := rfl
  rw [priority,position]
  cases findHandlerPosition r n (getHandlerPriority r n) with
  | none => exact ⟨rfl,rfl,rfl,rfl,kept⟩
  | some x => exact ⟨rfl,rfl,rfl,rfl,kept⟩

theorem admittedWanted {r : Registry} {existOk : Bool} (checked : checkEntry r entry existOk = .ok plan)
    (order : Nat) (event : String) :
    accepts fnmatchcase (entry.admitted plan order) event = wanted fnmatchcase entry event := by
  unfold checkEntry at checked
  simp only [bindOk,raiseIfOk,exists_const] at checked
  obtain ⟨_,_,_,_,_,_,_,_,subscriptions,subscribed,filters,filtered,key,_,last⟩ := checked
  cases last
  simp only [accepts,Handler.admitted,textsOf,wanted,subscribed,filtered]

section Live
variable {fields : Fields}

theorem assignedThere (there : r.heap[ref]? = some h) :
    (assign r ref (reassigned h fields)).heap[ref]? = some (reassigned h fields) :=
  Slots.setSame there

theorem assignedHandler (there : r.heap[ref]? = some h) (registered : r.registry.get h.name = some ref) :
    (assign r ref (reassigned h fields)).handler h.name = some (reassigned h fields) :=
  handlerOf registered (assignedThere there)

theorem assignedOthers (coherent : Coherent fnmatchcase r) (there : r.heap[ref]? = some h)
    (other : m ≠ h.name) (next : Handler) : (assign r ref next).handler m = r.handler m := by
  unfold Registry.handler assign
  cases found : r.registry.get m with
  | none => rfl
  | some ref' =>
    obtain ⟨h',there',entry⟩ := coherent.known m ref' found
    refine Slots.setOther ?_
    intro same
    subst same
    cases Option.some.inj (there.symm.trans there')
    exact other entry.name.symm

theorem chainHolds (coherent : Coherent fnmatchcase r) (there : r.heap[ref]? = some h)
    (registered : r.registry.get h.name = some ref) (cached : r.cachedChain.get event = some chain)
    (missing : h.name ∉ chain) : accepts fnmatchcase h event = false := by
  by_contra accepted
  have selected : selects fnmatchcase r event h.name = true := by
    rw [selectsOf registered there]
    simpa using accepted
  have active := (coherent.names h.name).mpr (Dict.keyOf registered)
  rw [coherent.cached event chain cached] at missing
  exact missing (List.mem_filter.mpr ⟨active,selected⟩)

theorem fitCoherent (coherent : Coherent fnmatchcase r) (there : r.heap[ref]? = some h)
    (registered : r.registry.get h.name = some ref)
    (fit : Fit fnmatchcase r h.name (reassigned h fields))
    (done : reassign fnmatchcase r ref h fields = .ok t) : Coherent fnmatchcase t := by
  obtain ⟨plan,s,i,committed⟩ := registeredCommitted (assignedThere there) done
  obtain ⟨existOk,checked⟩ := committed.checked
  obtain ⟨heap,registry,_,buckets,caches⟩ :=
    unregisterExactly (assignedHandler there registered) committed.taken
  obtain ⟨h',there',entry⟩ := coherent.known h.name ref registered
  cases Option.some.inj (there.symm.trans there')
  have active := (coherent.names h.name).mpr (Dict.keyOf registered)
  have directed : getHandlerPriority (assign r ref (reassigned h fields)) h.name =
      (reassigned h fields).priority := by
    rw [getHandlerPriority,assignedHandler there registered]
    rfl
  obtain ⟨left,taken,erased,filled⟩ :=
    removedPlaced (r := assign r ref (reassigned h fields)) coherent.separate coherent.filled active
      (by rw [directed]; exact fit.placed)
  obtain ⟨cache,_,expired⟩ := @invalidated fnmatchcase _ entry.normal r
  have same : s.priorityBuckets = left := by rw [buckets]; exact congrArg Registry.priorityBuckets taken
  -- the registry without the name, as a plain removal would leave it
  have base : Coherent fnmatchcase {r with
      registry := r.registry.erase h.name, priorityBuckets := left, cachedChain := cache} :=
    removedCoherent coherent registered there rfl (erasedRegistry r h.name) erased filled expired
  let next := (reassigned h fields).admitted plan s.registerOrder
  let cut := (s.cachedChain.keys.filter (accepts fnmatchcase next)).foldl Dict.erase s.cachedChain
  have cutGet : ∀ event, cut.get event =
      if accepts fnmatchcase next event then none else s.cachedChain.get event := by
    intro event
    simp only [cut,eraseAll,List.mem_filter]
    by_cases known : event ∈ s.cachedChain.keys
    · simp [known]
    · simp [known,Dict.getNone.mpr known]
  have trimmed : Coherent fnmatchcase {s with cachedChain := cut} := by
    refine sameHandlers base same ?_ ?_ ?_
    · intro event chain at_
      rw [cutGet] at at_
      split at at_
      · contradiction
      · rename_i rejected
        rcases caches event with ⟨_,gone⟩ | ⟨unmatched,kept⟩
        · rw [gone] at at_
          contradiction
        · rw [kept] at at_
          have missing : h.name ∉ chain := by
            intro inside
            rcases fit.caches event chain at_ inside with matched | selected
            · exact unmatched matched
            · exact rejected ((admittedWanted checked _ event).trans selected)
          simp only [expired,chainHolds coherent there registered at_ missing]
          exact at_
    · intro m
      rw [registry]
      exact Iff.rfl
    · intro m
      by_cases mine : m = h.name
      · subst mine
        rw [handlerNone (by rw [registry]; exact Dict.getEraseSame _ _)]
        exact (handlerNone (Dict.getEraseSame _ _)).symm
      · have others := assignedOthers coherent there mine (reassigned h fields)
        unfold Registry.handler at others ⊢
        simp only [registry,heap]
        change ((r.registry.erase h.name).get m).bind _ = ((r.registry.erase h.name).get m).bind _
        rw [Dict.getEraseOther mine]
        exact others
  have entered := committedEntered committed (by rw [same]; exact filled)
  have enteredCut : Entered fnmatchcase {s with cachedChain := cut} t h.name ref next
      plan.bucketPriority i := by
    refine ⟨entered.heap,entered.registry,entered.buckets,entered.filled,?_⟩
    intro event
    rw [entered.cached,cutGet]
    split <;> rfl
  have missing : s.registry.get h.name = none := by rw [registry]; exact Dict.getEraseSame _ _
  have present : s.heap[ref]? = some (reassigned h fields) := by rw [heap]; exact assignedThere there
  have fits : Fitting next plan.bucketPriority := checkedFits checked _
  have normal : Normal next := admittedNormal (reassigned h fields) plan s.registerOrder
  exact enteredCoherent trimmed missing present rfl (rfl : next.name = h.name) normal fits enteredCut

theorem lookupAgrees (coherent : Coherent fnmatchcase u) (n : String) :
    findHandlerPosition u n (getHandlerPriority u n) = findHandlerPosition u n .none := by
  cases found : u.registry.get n with
  | none => rw [getHandlerPriority,handlerNone found]; rfl
  | some ref =>
    obtain ⟨h,there,entry⟩ := coherent.known n ref found
    have active := (coherent.names n).mpr (Dict.keyOf found)
    have priority : getHandlerPriority u n = h.priority := by
      rw [getHandlerPriority,handlerOf found there]; rfl
    obtain ⟨x,directed⟩ := findComplete active entry.placed
    obtain ⟨y,scanned⟩ := findComplete (p := .none) active trivial
    have first := findSound directed
    have second := findSound scanned
    have key := coherent.separate.apart x.1 y.1 n (List.mem_of_getElem? first) (List.mem_of_getElem? second)
    rw [← key] at second
    obtain ⟨left,hereLeft⟩ := List.getElem?_eq_some_iff.mp first
    obtain ⟨right,hereRight⟩ := List.getElem?_eq_some_iff.mp second
    have index : x.2 = y.2 :=
      (coherent.separate.each x.1).getElem_inj_iff.mp (hereLeft.trans hereRight.symm)
    rw [priority,directed,scanned]
    exact congrArg some (Prod.ext key index)

theorem occurrencesOf (coherent : Coherent fnmatchcase u) (n : String) :
    (Buckets.occurrences u.priorityBuckets).count n = if (u.registry.get n).isSome then 1 else 0 := by
  split
  · rename_i known
    exact Buckets.occurOnce coherent.separate ((coherent.names n).mpr (Dict.getIsSome.mp known))
  · rename_i unknown
    rw [← (Buckets.orderPerm _).count_eq]
    refine List.count_eq_zero.mpr ?_
    intro active
    exact unknown (Dict.getIsSome.mpr ((coherent.names n).mp active))

theorem tracelessOf (coherent : Coherent fnmatchcase u) (missing : u.registry.get n = none) :
    Traceless u n := by
  refine ⟨missing,by rw [occurrencesOf coherent n,missing]; rfl,?_⟩
  intro event chain cached inside
  rw [coherent.cached event chain cached] at inside
  exact Dict.getNone.mp missing ((coherent.names n).mp (List.mem_filter.mp inside).1)

theorem soundOf {next : String → Bool} (coherent : Coherent fnmatchcase u)
    (mine : ∀ ref, u.registry.get n = some ref → ∃ h, u.heap[ref]? = some h ∧
      ∀ event, accepts fnmatchcase h event = next event) : Sound fnmatchcase u n next := by
  refine ⟨occurrencesOf coherent n,lookupAgrees coherent n,?_,?_⟩
  · intro event chain s resolved
    rcases chainCases coherent event with ⟨_,error,raised⟩ | ⟨_,s',found,_⟩
    · rw [raised] at resolved
      contradiction
    · rw [found] at resolved
      cases resolved
      have distinct : (fresh fnmatchcase u event).Nodup :=
        (Buckets.orderNodup coherent.separate).filter _
      refine ⟨List.nodup_iff_count_le_one.mp distinct n,?_⟩
      intro inside
      obtain ⟨active,selected⟩ := List.mem_filter.mp inside
      have known := Dict.getIsSome.mpr ((coherent.names n).mp active)
      obtain ⟨ref,found⟩ := Option.isSome_iff_exists.mp known
      obtain ⟨h,there,same⟩ := mine ref found
      rw [selectsOf found there,same] at selected
      exact ⟨known,selected⟩
  · rcases unregisterCases coherent n true with ⟨s,taken,without⟩ | ⟨impossible,_⟩
    · exact ⟨s,taken,tracelessOf without.coherent (by rw [without.registry,if_pos rfl])⟩
    · contradiction

theorem furtherKeeps {a : Action} (coherent : Coherent fnmatchcase u) (quiet : further a = true)
    (taken : step fnmatchcase u a = some t) :
    t.heap = u.heap ∧ ∀ m ref, t.registry.get m = some ref → u.registry.get m = some ref := by
  have removal : ∀ n missingOk,
      (stateOf (leaving u (unregisterHandler fnmatchcase u n missingOk))).heap = u.heap ∧
      ∀ m ref, (stateOf (leaving u (unregisterHandler fnmatchcase u n missingOk))).registry.get m = some ref →
        u.registry.get m = some ref := by
    intro n missingOk
    rcases unregisterCases coherent n missingOk with ⟨s,gone,without⟩ | ⟨_,raised⟩
    · rw [gone]
      refine ⟨without.heap,?_⟩
      intro m ref found
      change s.registry.get m = some ref at found
      rw [without.registry] at found
      split at found
      · contradiction
      · exact found
    · rw [raised]
      exact ⟨rfl,fun _ _ found => found⟩
  cases Option.some.inj taken
  cases a with
  | create handler => contradiction
  | subscribe options subject => contradiction
  | register ref options => contradiction
  | registerHandler ref existOk => contradiction
  | unsubscribe name missingOk => exact removal name missingOk
  | unregisterHandler name missingOk => exact removal name missingOk
  | unregister ref missingOk =>
    simp only [perform]
    split
    · exact ⟨rfl,fun _ _ found => found⟩
    · exact removal _ missingOk
  | query event =>
    simp only [perform]
    rcases handlersCases coherent event with ⟨_,error,raised⟩ | ⟨_,refs,s,found,_,registry,heap,_⟩
    · rw [raised]
      exact ⟨rfl,fun _ _ found => found⟩
    · rw [found]
      exact ⟨heap,fun m ref known => by rw [← registry]; exact known⟩
  | queryNames event =>
    simp only [perform]
    rcases chainCases coherent event with ⟨_,error,raised⟩ | ⟨_,s,found,registry,heap,_⟩
    · rw [raised]
      exact ⟨rfl,fun _ _ found => found⟩
    · rw [found]
      exact ⟨heap,fun m ref known => by rw [← registry]; exact known⟩

theorem runFurther {as : List Action} (coherent : Coherent fnmatchcase t)
    (quiet : ∀ a ∈ as, further a = true) (ran : Machine.run (step fnmatchcase) t as = some u) :
    Coherent fnmatchcase u ∧ u.heap = t.heap ∧
      ∀ m ref, u.registry.get m = some ref → t.registry.get m = some ref := by
  refine Machine.invariantWhere (C := fun a => further a = true)
    (P := fun u => Coherent fnmatchcase u ∧ u.heap = t.heap ∧
      ∀ m ref, u.registry.get m = some ref → t.registry.get m = some ref)
    ?_ quiet ⟨coherent,rfl,fun _ _ found => found⟩ ran
  intro u a v allowed known taken
  obtain ⟨heap,registry⟩ := furtherKeeps known.1 allowed taken
  exact ⟨stepCoherent known.1 taken,heap.trans known.2.1,
    fun m ref found => known.2.2 m ref (registry m ref found)⟩

theorem reassignedThere (there : r.heap[ref]? = some h) (registered : r.registry.get h.name = some ref)
    (done : reassign fnmatchcase r ref h fields = .ok t) :
    t.registry.get h.name = some ref ∧ ∃ next, t.heap[ref]? = some next ∧ Normal next ∧
      ∀ event, accepts fnmatchcase next event = wanted fnmatchcase (reassigned h fields) event := by
  obtain ⟨plan,s,i,committed⟩ := registeredCommitted (assignedThere there) done
  obtain ⟨existOk,checked⟩ := committed.checked
  obtain ⟨heap,_⟩ := unregisterExactly (assignedHandler there registered) committed.taken
  refine ⟨by rw [committed.registry]; exact if_pos rfl,(reassigned h fields).admitted plan s.registerOrder,
    ?_,admittedNormal _ _ _,admittedWanted checked _⟩
  rw [committed.heap,heap]
  exact Slots.setSame (assignedThere there)

theorem fitSound {as : List Action} (coherent : Coherent fnmatchcase r) (there : r.heap[ref]? = some h)
    (registered : r.registry.get h.name = some ref)
    (done : reassign fnmatchcase r ref h fields = .ok t)
    (fit : Fit fnmatchcase r h.name (reassigned h fields)) (quiet : ∀ a ∈ as, further a = true)
    (ran : Machine.run (step fnmatchcase) t as = some u) :
    Sound fnmatchcase u h.name (wanted fnmatchcase (reassigned h fields)) := by
  obtain ⟨kept,heap,fewer⟩ := runFurther (fitCoherent coherent there registered fit done) quiet ran
  obtain ⟨mine,next,inside,_,same⟩ := reassignedThere there registered done
  refine soundOf kept ?_
  intro ref' found
  cases Option.some.inj (mine.symm.trans (fewer h.name ref' found))
  exact ⟨next,by rw [heap]; exact inside,same⟩

theorem findMisses {p : Priority} (misplaced : ¬ Placed r.priorityBuckets n p) :
    findHandlerPosition r n p = none := by
  have misses : ∀ key, p.key = some key → p ≠ .none → n ∉ Buckets.bucket r.priorityBuckets key := by
    intro key same explicit inside
    cases p with
    | none => exact explicit rfl
    | number value text => exact misplaced ⟨key,same,inside⟩
    | boolean b => exact misplaced ⟨key,same,inside⟩
    | other typeName => exact misplaced ⟨key,same,inside⟩
  unfold findHandlerPosition
  split
  · exact absurd trivial misplaced
  · rename_i explicit
    cases same : p.key with
    | none => rfl
    | some key =>
      have absent := misses key same explicit
      simp only [bind,Option.bind_some]
      cases found : r.priorityBuckets.get key with
      | none => rfl
      | some b =>
        rw [Buckets.bucketOf found] at absent
        simp only [Option.bind_some,positionIn,List.idxOf?_eq_none_iff.mpr absent]
        rfl

theorem countTwice {d : Dict ℚ (List String)} {j k : ℚ} (left : n ∈ Buckets.bucket d j)
    (right : n ∈ Buckets.bucket d k) (different : j ≠ k) : 2 ≤ (Buckets.occurrences d).count n := by
  have pair : Before (Buckets.order d) n n := by
    rcases lt_or_gt_of_ne different with less | more
    · exact greaterBefore right left less
    · exact greaterBefore left right more
  have counted := pair.count_le n
  rw [← (Buckets.orderPerm d).count_eq]
  simpa using counted

theorem removeMissed {n : String} (missed : findHandlerPosition r n (getHandlerPriority r n) = none) :
    removeFromBucket r n = r := by
  simp only [removeFromBucket,missed]

theorem misplacedTwice (coherent : Coherent fnmatchcase r) (there : r.heap[ref]? = some h)
    (registered : r.registry.get h.name = some ref)
    (done : reassign fnmatchcase r ref h fields = .ok t)
    (misplaced : ¬ Placed r.priorityBuckets h.name (reassigned h fields).priority) :
    2 ≤ (Buckets.occurrences t.priorityBuckets).count h.name := by
  obtain ⟨plan,s,i,committed⟩ := registeredCommitted (assignedThere there) done
  obtain ⟨existOk,checked⟩ := committed.checked
  obtain ⟨_,_,_,buckets,_⟩ := unregisterExactly (assignedHandler there registered) committed.taken
  have directed : getHandlerPriority (assign r ref (reassigned h fields)) h.name =
      (reassigned h fields).priority := by
    rw [getHandlerPriority,assignedHandler there registered]
    rfl
  -- nothing is removed, since the bucket of the new priority does not hold the name
  have same : s.priorityBuckets = r.priorityBuckets := by
    have missed := findMisses (r := assign r ref (reassigned h fields)) misplaced
    rw [← directed] at missed
    rw [buckets,removeMissed missed]
    rfl
  have key : (reassigned h fields).priority.key = some plan.bucketPriority := by
    rcases checkedPlace checked with ⟨_,key⟩ | ⟨nothing,_⟩
    · exact key
    · rw [nothing] at misplaced
      exact absurd trivial misplaced
  have fits : ∀ j, h.name ∈ Buckets.bucket r.priorityBuckets j → j ≠ plan.bucketPriority := by
    intro j inside equal
    subst equal
    exact misplaced (placedFit (.inr key) inside)
  obtain ⟨j,old⟩ := Buckets.memOrder.mp ((coherent.names h.name).mpr (Dict.keyOf registered))
  have stays : h.name ∈ Buckets.bucket t.priorityBuckets j := by
    rw [committedBuckets committed,if_neg (fits j old),same]
    exact old
  have enters : h.name ∈ Buckets.bucket t.priorityBuckets plan.bucketPriority := by
    rw [committedBuckets committed,if_pos rfl]
    exact (insertPerm _ _ _).mem_iff.mpr List.mem_cons_self
  exact countTwice stays enters (fits j old)

theorem soundFit (coherent : Coherent fnmatchcase r) (there : r.heap[ref]? = some h)
    (registered : r.registry.get h.name = some ref)
    (done : reassign fnmatchcase r ref h fields = .ok t)
    (sound : Sound fnmatchcase t h.name (wanted fnmatchcase (reassigned h fields))) :
    Fit fnmatchcase r h.name (reassigned h fields) := by
  obtain ⟨mine,next,inside,normal,same⟩ := reassignedThere there registered done
  constructor
  · by_contra misplaced
    have twice := misplacedTwice coherent there registered done misplaced
    have once := sound.once
    rw [mine] at once
    simp only [Option.isSome_some,if_true] at once
    omega
  · -- a chain that outlived the registration outlives the removal too
    intro event chain cached holds
    by_contra neither
    obtain ⟨unmatched,unwanted⟩ := not_or.mp neither
    obtain ⟨plan,s,i,committed⟩ := registeredCommitted (assignedThere there) done
    obtain ⟨existOk,checked⟩ := committed.checked
    obtain ⟨_,_,_,_,caches⟩ := unregisterExactly (assignedHandler there registered) committed.taken
    have first : s.cachedChain.get event = some chain := by
      rcases caches event with ⟨matched,_⟩ | ⟨_,kept⟩
      · exact absurd matched unmatched
      · exact kept.trans cached
    have second : t.cachedChain.get event = some chain := by
      rw [committed.cached,admittedWanted checked,if_neg unwanted]
      exact first
    obtain ⟨v,gone,traceless⟩ := sound.removal
    obtain ⟨_,_,_,_,later⟩ := unregisterExactly (handlerOf mine inside) gone
    rcases later event with ⟨matched,_⟩ | ⟨_,kept⟩
    · rw [matchesNormal normal,same] at matched
      exact unwanted (Except.ok.inj matched)
    · exact traceless.caches event chain (kept.trans second) holds

end Live

theorem callCoherent {c : Call} (met : Meets fnmatchcase r c) (coherent : Coherent fnmatchcase r)
    (taken : callStep fnmatchcase r c = some t) : Coherent fnmatchcase t := by
  cases c with
  | plain a => exact stepCoherent coherent taken
  | reassign ref fields =>
    simp only [callStep,Option.bind_eq_some_iff] at taken
    obtain ⟨h,found,last⟩ := taken
    obtain ⟨there,registered⟩ := liveCases found
    cases done : reassign fnmatchcase r ref h fields with
    | error failure =>
      rw [done] at last
      contradiction
    | ok s =>
      rw [done] at last
      cases Option.some.inj last
      exact fitCoherent coherent there registered (met h found) done

theorem reassignment {calls : List Call} {fields : Fields}
    (met : Machine.Steps (callStep fnmatchcase) (Meets fnmatchcase) initial calls)
    (ran : Machine.run (callStep fnmatchcase) initial calls = some r) (found : live r ref = some h)
    (done : reassign fnmatchcase r ref h fields = .ok t) :
    (∀ as u, (∀ a ∈ as, further a = true) → Machine.run (step fnmatchcase) t as = some u →
      Sound fnmatchcase u h.name (wanted fnmatchcase (reassigned h fields))) ↔
    Fit fnmatchcase r h.name (reassigned h fields) := by
  have coherent : Coherent fnmatchcase r :=
    Machine.invariantSteps (fun _ _ _ met kept taken => callCoherent met kept taken) met
      initialCoherent ran
  obtain ⟨there,registered⟩ := liveCases found
  constructor
  · intro sound
    exact soundFit coherent there registered done (sound [] t (fun _ member => absurd member List.not_mem_nil) rfl)
  · intro fit as u quiet ran'
    exact fitSound coherent there registered done fit quiet ran'

def before : List Call :=
  [.plain (.create (newHandler "audit" (.function 0))),
    .plain (.register 0 (one ["a","b"] (.number (.finite 5) "5") .none)),
    .plain (.query "a"),.plain (.query "b")]

def beforeState : Registry := (Machine.run (callStep exactly) initial before).getD initial

def audit : Handler := (live beforeState 0).getD (newHandler "" .none)

def moved : Fields := ⟨.number (.finite 7) "7",.none,.items [.text "a"],.items []⟩

def movedState : Registry := stateOf (reassign exactly beforeState 0 audit moved)

def narrowed : Fields := ⟨.number (.finite 5) "5",.none,.items [.text "a",.text "b",.text "c"],.items []⟩

def narrowedState : Registry := stateOf (reassign exactly beforeState 0 audit narrowed)

/- The name is in the bucket of 5 and in that of 7, and the chain of "b" holds it. -/
theorem reassignedTwice :
    ¬ ∀ (calls : List Call) (r t u : Registry) (ref : Nat) (h : Handler) (fields : Fields)
      (as : List Action), Machine.Steps (callStep exactly) (Meets exactly) initial calls →
      Machine.run (callStep exactly) initial calls = some r → live r ref = some h →
      reassign exactly r ref h fields = .ok t → (∀ a ∈ as, further a = true) →
      Machine.run (step exactly) t as = some u →
      Sound exactly u h.name (wanted exactly (reassigned h fields)) := by
  intro always
  have sound := always before beforeState movedState movedState 0 audit moved []
    ⟨trivial,fun _ _ => ⟨trivial,fun _ _ => ⟨trivial,fun _ _ => ⟨trivial,fun _ _ => trivial⟩⟩⟩⟩
    rfl rfl rfl (fun _ member => absurd member List.not_mem_nil) rfl
  have twice : (Buckets.occurrences movedState.priorityBuckets).count "audit" = 2 := by decide
  have once := sound.once
  rw [show (movedState.registry.get audit.name).isSome = true by decide] at once
  exact absurd (once.symm.trans twice) (by decide)

theorem reassignmentNarrowed :
    (∀ as u, (∀ a ∈ as, further a = true) → Machine.run (step exactly) narrowedState as = some u →
      Sound exactly u audit.name (wanted exactly (reassigned audit narrowed))) ↔
    Fit exactly beforeState audit.name (reassigned audit narrowed) :=
  @reassignment exactly beforeState narrowedState 0 audit before narrowed
    ⟨trivial,fun _ _ => ⟨trivial,fun _ _ => ⟨trivial,fun _ _ => ⟨trivial,fun _ _ => trivial⟩⟩⟩⟩
    rfl rfl rfl

end Apixis.Reassignment
