import Apixis.Event.Registration
import Apixis.Library.Precedence

/-! Where a registration puts its handler in the dispatch order. The buckets of
all other names only lose the old entry, so their order is read off one filter,
and the place of the new name is read off the bucket it enters. -/
namespace Apixis.Placement
open HandlerRegistry PyError ChainCache Registration Precedence

variable {fnmatchcase : String → String → Bool} {r s t u : Registry} {n m left right : String}
  {ref : Nat} {h entry : Handler} {existOk : Bool} {plan : Plan} {k : ℚ} {a : Action}

def others (l : List String) (n : String) : List String := l.filter (fun m => m ≠ n)

/- What the place of a handler is with respect to all others, by its own fields. -/
def Positioned (r t : Registry) (h : Handler) : Prop :=
  match h.betweenHandlers with
  | .none => ∃ p, h.priority.key = some p ∧
      ∀ k m, m ≠ h.name → m ∈ Buckets.bucket r.priorityBuckets k →
        (p ≤ k → Before t.activeNames m h.name) ∧ (k < p → Before t.activeNames h.name m)
  | .pair (.text left) (.text right) => Before r.activeNames left right ∧
      Before t.activeNames left h.name ∧ Next t.activeNames h.name right
  | .pair .none (.text right) => Next t.activeNames h.name right
  | .pair (.text left) .none => Next t.activeNames left h.name
  | _ => False

/- The name that an action registers or removes, if it succeeds. -/
def named (r : Registry) : Action → Option String
  | .subscribe _ (.function name _) => some name
  | .subscribe _ (.instance ref) => (r.heap[ref]?).map Handler.name
  | .register ref _ => (r.heap[ref]?).map Handler.name
  | .registerHandler ref _ => (r.heap[ref]?).map Handler.name
  | .unsubscribe name _ => some name
  | .unregister ref _ => (r.heap[ref]?).map Handler.name
  | .unregisterHandler name _ => some name
  | _ => none

/- The action takes place and neither registers nor removes the name. -/
def Spares (fnmatchcase : String → String → Bool) (n : String) (r : Registry) (a : Action) : Prop :=
  ∀ t, perform fnmatchcase r a = .ok t → named r a ≠ some n

structure Entering (fnmatchcase : String → String → Bool) (r t : Registry) (entry : Handler)
    (plan : Plan) (i : Nat) : Prop where
  checked : ∃ existOk, checkEntry r entry existOk = .ok plan
  index : insertIndex ((Buckets.bucket r.priorityBuckets plan.bucketPriority).erase entry.name)
    entry.betweenHandlers = .ok i
  buckets : ∀ j, Buckets.bucket t.priorityBuckets j =
    if j = plan.bucketPriority
    then insertAt ((Buckets.bucket r.priorityBuckets plan.bucketPriority).erase entry.name) i entry.name
    else (Buckets.bucket r.priorityBuckets j).erase entry.name

theorem registeredEntering (coherent : Coherent fnmatchcase r) (there : r.heap[ref]? = some entry)
    (done : registerHandler fnmatchcase r ref existOk = .ok t) :
    ∃ plan i, Entering fnmatchcase r t entry plan i := by
  obtain ⟨plan,s,i,committed⟩ := registeredCommitted there done
  rcases unregisterCases coherent entry.name true with ⟨s',taken,without⟩ | ⟨impossible,_⟩
  · cases Except.ok.inj (committed.taken.symm.trans taken)
    refine ⟨plan,i,committed.checked,by rw [← without.buckets]; exact committed.index,?_⟩
    intro j
    rw [committedBuckets committed,without.buckets,without.buckets]
  · contradiction

theorem othersErase {l : List String} (distinct : l.Nodup) : others (l.erase n) n = others l n := by
  rw [others,distinct.erase_eq_filter,List.filter_filter]
  refine List.filter_congr ?_
  intro m _
  by_cases same : m = n <;> simp [same]

theorem enteringOthers (coherent : Coherent fnmatchcase r) {i : Nat}
    (entering : Entering fnmatchcase r t entry plan i) :
    others t.activeNames entry.name = others r.activeNames entry.name := by
  refine Buckets.orderFilter _ ?_
  intro j
  rw [entering.buckets]
  split
  · rename_i same
    rw [filterInsert _ _ (by simp),same]
    exact othersErase (coherent.separate.each plan.bucketPriority)
  · exact othersErase (coherent.separate.each j)

theorem removedOthers (coherent : Coherent fnmatchcase r) (without : Removed fnmatchcase r s n) :
    others s.activeNames n = others r.activeNames n := by
  refine Buckets.orderFilter _ ?_
  intro j
  rw [without.buckets]
  exact othersErase (coherent.separate.each j)

theorem insertNext {l : List String} {i : Nat} (found : indexOf l right = .ok i) :
    Next (insertAt l i n) n right := by
  unfold indexOf at found
  split at found
  · contradiction
  · rename_i index at_
    cases found
    obtain ⟨bound,here,_⟩ := List.idxOf?_eq_some_iff.mp at_
    refine ⟨l.take i,l.drop (i + 1),?_⟩
    rw [insertAt,List.drop_eq_getElem_cons bound,here]
    simp

theorem insertAfter {l : List String} {i : Nat} (found : indexOf l left = .ok i) :
    Next (insertAt l (i + 1) n) left n := by
  unfold indexOf at found
  split at found
  · contradiction
  · rename_i index at_
    cases found
    obtain ⟨bound,here,_⟩ := List.idxOf?_eq_some_iff.mp at_
    refine ⟨l.take i,l.drop (i + 1),?_⟩
    rw [insertAt,List.take_succ_eq_append_getElem bound,here]
    simp

theorem insertEnd (l : List String) (n : String) : insertAt l l.length n = l ++ [n] := by
  rw [insertAt,List.take_length,List.drop_length]

theorem orderedPositions {x y : ℚ × Nat}
    (first : (Buckets.bucket r.priorityBuckets x.1)[x.2]? = some left)
    (second : (Buckets.bucket r.priorityBuckets y.1)[y.2]? = some right)
    (ordered : misplaced x y = false) : Before r.activeNames left right := by
  obtain ⟨j,i⟩ := x
  obtain ⟨k,l⟩ := y
  simp only [misplaced,Bool.or_eq_false_iff,decide_eq_false_iff_not,Bool.and_eq_false_iff] at ordered
  obtain ⟨notLess,unequal⟩ := ordered
  rcases lt_or_eq_of_le (not_lt.mp notLess) with less | same
  · exact greaterBefore (List.mem_of_getElem? first) (List.mem_of_getElem? second) less
  · cases same
    have index : i < l := by
      rcases unequal with different | late
      · exact absurd rfl different
      · omega
    exact bucketBefore (beforeGet first second index)

theorem boundaryAt {x : ℚ × Nat} (found : boundaryPosition r (.text left) = .ok (some x)) :
    (Buckets.bucket r.priorityBuckets x.1)[x.2]? = some left := by
  simp only [boundaryPosition] at found
  split at found
  · contradiction
  · rename_i y at_
    cases found
    exact findSound at_

theorem boundaryText (text : String) {found : Option (ℚ × Nat)}
    (position : boundaryPosition r (.text text) = .ok found) : ∃ x, found = some x := by
  simp only [boundaryPosition] at position
  split at position
  · contradiction
  · cases position
    exact ⟨_,rfl⟩

theorem betweenOrdered
    (valid : validateBetweenHandlers r n (.pair (.text left) (.text right)) = .ok k) :
    Before r.activeNames left right := by
  simp only [validateBetweenHandlers,bindOk,raiseIfOk,exists_const] at valid
  obtain ⟨_,_,_,_,leftAt,foundLeft,rightAt,foundRight,last⟩ := valid
  obtain ⟨x,rfl⟩ := boundaryText left foundLeft
  obtain ⟨y,rfl⟩ := boundaryText right foundRight
  simp only [bindOk,raiseIfOk,exists_const] at last
  exact orderedPositions (boundaryAt foundLeft) (boundaryAt foundRight) last.1

theorem checkedBetween {between : Between} (checked : checkEntry r entry existOk = .ok plan)
    (explicit : entry.betweenHandlers = between) (some_ : between ≠ .none) :
    validateBetweenHandlers r entry.name between = .ok plan.bucketPriority := by
  unfold checkEntry at checked
  simp only [bindOk,raiseIfOk,exists_const] at checked
  obtain ⟨_,_,_,_,_,_,_,_,_,_,_,_,key,place,last⟩ := checked
  cases last
  unfold bucketPriority at place
  rw [explicit] at place
  cases between with
  | none => exact absurd rfl some_
  | pair left right => exact place
  | malformed => exact place

theorem othersBefore (same : others t.activeNames n = others r.activeNames n) (apart : left ≠ n)
    (separate : right ≠ n) (both : Before r.activeNames left right) :
    Before t.activeNames left right := by
  have kept := (beforeFilter (p := fun m => decide (m ≠ n)) (by simp [apart]) (by simp [separate])).mpr both
  change Before (others r.activeNames n) left right at kept
  rw [← same] at kept
  exact (beforeFilter (by simp [apart]) (by simp [separate])).mp kept

theorem enteredAppend {i : Nat} (entering : Entering fnmatchcase r t entry plan i)
    (plain : entry.betweenHandlers = .none) : Buckets.bucket t.priorityBuckets plan.bucketPriority =
      (Buckets.bucket r.priorityBuckets plan.bucketPriority).erase entry.name ++ [entry.name] := by
  have index := entering.index
  rw [plain] at index
  cases index
  rw [entering.buckets,if_pos rfl,insertEnd]

/- With an explicit priority the handler is the last of its bucket. -/
theorem explicitPlace {i : Nat} (entering : Entering fnmatchcase r t entry plan i)
    (plain : entry.betweenHandlers = .none) (different : m ≠ entry.name)
    (inside : m ∈ Buckets.bucket r.priorityBuckets k) :
    (plan.bucketPriority ≤ k → Before t.activeNames m entry.name) ∧
      (k < plan.bucketPriority → Before t.activeNames entry.name m) := by
  have appended := enteredAppend entering plain
  have stays : m ∈ (Buckets.bucket r.priorityBuckets k).erase entry.name :=
    (List.mem_erase_of_ne different).mpr inside
  have mine : entry.name ∈ Buckets.bucket t.priorityBuckets plan.bucketPriority := by
    rw [appended]
    exact List.mem_append_right _ List.mem_cons_self
  have away : k ≠ plan.bucketPriority → m ∈ Buckets.bucket t.priorityBuckets k := by
    intro other
    rw [entering.buckets,if_neg other]
    exact stays
  constructor
  · intro most
    rcases lt_or_eq_of_le most with less | same
    · exact greaterBefore (away (ne_of_gt less)) mine less
    · subst same
      refine bucketBefore (k := plan.bucketPriority) ?_
      rw [appended]
      exact beforeLast stays
  · intro less
    exact greaterBefore mine (away (ne_of_lt less)) less

theorem enteringPositioned {i : Nat} (coherent : Coherent fnmatchcase r) (kept : Coherent fnmatchcase t)
    (entering : Entering fnmatchcase r t entry plan i) : Positioned r t entry := by
  obtain ⟨existOk,checked⟩ := entering.checked
  have index := entering.index
  have mine := entering.buckets plan.bucketPriority
  rw [if_pos rfl] at mine
  unfold Positioned
  split
  · rename_i plain
    rcases checkedPlace checked with ⟨_,key⟩ | ⟨_,left,right,pair,_⟩
    · exact ⟨_,key,fun k m different inside => explicitPlace entering plain different inside⟩
    · rw [plain] at pair
      contradiction
  · rename_i left right pair
    have valid := checkedBetween checked pair (by intro bad; cases bad)
    have ordered := betweenOrdered valid
    rw [pair] at index
    have next : Next t.activeNames entry.name right := by
      refine bucketNext (k := plan.bucketPriority) ?_
      rw [mine]
      exact insertNext index
    simp only [validateBetweenHandlers,bindOk,raiseIfOk,exists_const,Bool.or_eq_false_iff] at valid
    have leftOther : left ≠ entry.name := by
      intro same
      simp [same] at valid
    have rightOther : right ≠ entry.name := by
      intro same
      simp [same] at valid
    have early := othersBefore (enteringOthers coherent entering) leftOther rightOther ordered
    exact ⟨ordered,beforeThrough (Buckets.orderNodup kept.separate) early next leftOther,next⟩
  · rename_i right pair
    rw [pair] at index
    refine bucketNext (k := plan.bucketPriority) ?_
    rw [mine]
    exact insertNext index
  · rename_i left pair
    rw [pair] at index
    simp only [insertIndex,bindOk] at index
    obtain ⟨i',found,last⟩ := index
    cases last
    refine bucketNext (k := plan.bucketPriority) ?_
    rw [mine]
    exact insertAfter found
  · rename_i impossible notBoth notRight notLeft
    rcases checkedPlace checked with ⟨nothing,_⟩ | ⟨_,left,right,pair,bound⟩
    · exact absurd nothing impossible
    · rcases bound with ⟨name,rfl,_⟩ | ⟨rfl,name,rfl,_⟩
      · cases left with
        | none => exact notRight name pair
        | text text => exact notBoth text name pair
        | other =>
          have valid := checkedBetween checked pair (by intro bad; cases bad)
          simp [validateBetweenHandlers,bindOk,raiseIfOk,Slot.malformed] at valid
      · exact notLeft name pair

theorem callsCoherent (coherent : Coherent fnmatchcase r) (calls : Calls r a s ref existOk) :
    Coherent fnmatchcase s := by
  cases calls with
  | direct ref existOk => exact coherent
  | function options name id range => exact allocatedCoherent coherent _
  | copied options ref func range there => exact allocatedCoherent coherent _
  | method options ref self range there => exact allocatedCoherent coherent _

theorem callsNamed (calls : Calls r a s ref existOk) (there : s.heap[ref]? = some h) :
    named r a = some h.name := by
  cases calls with
  | direct ref existOk => rw [named,there]; rfl
  | function options name id range =>
    cases Option.some.inj ((Slots.appendNew).symm.trans there)
    rfl
  | copied options ref func range found =>
    cases Option.some.inj ((Slots.appendNew).symm.trans there)
    rw [named,found]
    rfl
  | method options ref self range found =>
    cases Option.some.inj ((Slots.appendNew).symm.trans there)
    rw [named,found]
    rfl

theorem callsPresent
    (done : registerHandler fnmatchcase s ref existOk = .ok t) : ∃ h, s.heap[ref]? = some h := by
  cases there : s.heap[ref]? with
  | none =>
    simp only [registerHandler,there] at done
    contradiction
  | some h => exact ⟨h,rfl⟩

theorem positionedSame {s t' : Registry} (before : s.priorityBuckets = r.priorityBuckets)
    (after : t'.priorityBuckets = t.priorityBuckets) (positioned : Positioned s t h) :
    Positioned r t' h := by
  unfold Positioned Registry.activeNames at *
  rw [← before,after]
  exact positioned

theorem requestRegisters (calls : Calls r a s ref existOk) (done : perform fnmatchcase r a = .ok u) :
    ∃ t, registerHandler fnmatchcase s ref existOk = .ok t ∧
      u.priorityBuckets = t.priorityBuckets ∧ u.cachedChain = t.cachedChain := by
  obtain ⟨fails,passes⟩ := @callsPass fnmatchcase _ _ _ _ _ calls
  cases outcome : registerHandler fnmatchcase s ref existOk with
  | error failure =>
    rw [fails failure outcome] at done
    contradiction
  | ok t =>
    obtain ⟨v,performed,buckets,caches⟩ := passes t outcome
    cases Except.ok.inj (performed.symm.trans done)
    exact ⟨t,rfl,buckets,caches⟩

theorem requestPlaces (coherent : Coherent fnmatchcase r) (calls : Calls r a s ref existOk)
    (there : s.heap[ref]? = some h) (done : perform fnmatchcase r a = .ok u) :
    others u.activeNames h.name = others r.activeNames h.name ∧ Positioned r u h := by
  have before := (callsUntouched calls).buckets
  have staged := callsCoherent coherent calls
  obtain ⟨t,registered,after,_⟩ := requestRegisters calls done
  obtain ⟨plan,i,entering⟩ := registeredEntering staged there registered
  have kept : Coherent fnmatchcase t := by
    have keeps := registerKeeps staged ref existOk
    rw [Keeps,registered] at keeps
    exact keeps
  have same := enteringOthers staged entering
  have positioned := enteringPositioned staged kept entering
  constructor
  · rw [Registry.activeNames,after,Registry.activeNames,← before]
    exact same
  · exact positionedSame before after positioned

theorem chainBuckets {event : String} {chain : List String}
    (found : getHandlersChainForEvent fnmatchcase r event = .ok (chain,t)) :
    t.priorityBuckets = r.priorityBuckets ∧ t.heap = r.heap ∧ t.registry = r.registry := by
  simp only [getHandlersChainForEvent,bindOk,leavingOk,raiseIfOk,exists_const] at found
  obtain ⟨_,last⟩ := found
  split at last
  · cases last
    exact ⟨rfl,rfl,rfl⟩
  · simp only [bindOk,leavingOk] at last
    obtain ⟨names,_,last⟩ := last
    cases last
    exact ⟨rfl,rfl,rfl⟩

theorem queryPlaces (coherent : Coherent fnmatchcase r) (event : String) :
    (stateOf (perform fnmatchcase r (.query event))).activeNames = r.activeNames := by
  simp only [perform]
  unfold getHandlersForEvent
  rcases chainCases coherent event with ⟨_,error,raised⟩ | ⟨_,t,found,_⟩
  · simp only [raised,bind,Except.bind]
    rfl
  · have buckets := (chainBuckets found).1
    simp only [found,bind,Except.bind]
    cases lookupAll t (fresh fnmatchcase r event) with
    | error error => exact congrArg Buckets.order buckets
    | ok refs => exact congrArg Buckets.order buckets

/- An action leaves the order of all names as it was, or of all but one. -/
def Moves (fnmatchcase : String → String → Bool) (r : Registry) (a : Action) : Prop :=
  (stateOf (perform fnmatchcase r a)).activeNames = r.activeNames ∨
    ∃ n t, perform fnmatchcase r a = .ok t ∧ named r a = some n ∧
      others t.activeNames n = others r.activeNames n

theorem unregisterPlaces (coherent : Coherent fnmatchcase r) (n : String) (missingOk : Bool) :
    (stateOf (leaving r (unregisterHandler fnmatchcase r n missingOk))).activeNames = r.activeNames ∨
    ∃ t, leaving r (unregisterHandler fnmatchcase r n missingOk) = .ok t ∧
      others t.activeNames n = others r.activeNames n := by
  rcases unregisterCases coherent n missingOk with ⟨t,taken,without⟩ | ⟨_,raised⟩
  · exact .inr ⟨t,by rw [taken]; rfl,removedOthers coherent without⟩
  · rw [raised]
    exact .inl rfl

theorem requestMoves (coherent : Coherent fnmatchcase r) (request : isRegistration a = true) :
    Moves fnmatchcase r a := by
  cases outcome : perform fnmatchcase r a with
  | error failure =>
    refine .inl ?_
    rw [outcome]
    exact congrArg Buckets.order (failedRequest request outcome).buckets
  | ok t =>
    rcases requestCalls fnmatchcase r request with ⟨error,raised⟩ | ⟨s,ref,existOk,calls⟩
    · rw [raised] at outcome
      contradiction
    · obtain ⟨v,registered,_⟩ := requestRegisters calls outcome
      obtain ⟨h,there⟩ := callsPresent registered
      exact .inr ⟨h.name,t,outcome,callsNamed calls there,(requestPlaces coherent calls there outcome).1⟩

theorem actionMoves (coherent : Coherent fnmatchcase r) (a : Action) : Moves fnmatchcase r a := by
  cases a with
  | create handler => exact .inl rfl
  | subscribe options subject => exact requestMoves coherent rfl
  | register ref options => exact requestMoves coherent rfl
  | registerHandler ref existOk => exact requestMoves coherent rfl
  | query event => exact .inl (queryPlaces coherent event)
  | queryNames event =>
    refine .inl ?_
    simp only [perform]
    rcases chainCases coherent event with ⟨_,error,raised⟩ | ⟨_,t,found,_⟩
    · rw [raised]
      rfl
    · rw [found]
      exact congrArg Buckets.order (chainBuckets found).1
  | unsubscribe name missingOk =>
    rcases unregisterPlaces coherent name missingOk with same | ⟨t,done,moved⟩
    · exact .inl same
    · exact .inr ⟨name,t,done,rfl,moved⟩
  | unregisterHandler name missingOk =>
    rcases unregisterPlaces coherent name missingOk with same | ⟨t,done,moved⟩
    · exact .inl same
    · exact .inr ⟨name,t,done,rfl,moved⟩
  | unregister ref missingOk =>
    unfold Moves
    simp only [perform]
    split
    · exact .inl rfl
    · rename_i self there
      rcases unregisterPlaces coherent self.name missingOk with same | ⟨t,done,moved⟩
      · exact .inl same
      · exact .inr ⟨self.name,t,done,by rw [named,there]; rfl,moved⟩

theorem stepBefore (coherent : Coherent fnmatchcase r) (spareLeft : Spares fnmatchcase left r a)
    (spareRight : Spares fnmatchcase right r a) (taken : step fnmatchcase r a = some s)
    (both : Before r.activeNames left right) : Before s.activeNames left right := by
  cases Option.some.inj taken
  rcases actionMoves coherent a with same | ⟨n,t,done,called,moved⟩
  · rw [same]
    exact both
  · have leftOther : left ≠ n := by
      intro same
      exact spareLeft t done (by rw [called,same])
    have rightOther : right ≠ n := by
      intro same
      exact spareRight t done (by rw [called,same])
    rw [done]
    exact othersBefore moved leftOther rightOther both

theorem runBefore {as : List Action} (coherent : Coherent fnmatchcase r)
    (spared : Machine.Steps (step fnmatchcase)
      (fun r a => Spares fnmatchcase left r a ∧ Spares fnmatchcase right r a) r as)
    (ran : Machine.run (step fnmatchcase) r as = some s) (both : Before r.activeNames left right) :
    Before s.activeNames left right := by
  have kept := Machine.invariantSteps (P := fun r => Coherent fnmatchcase r ∧ Before r.activeNames left right)
    (fun r a t spare known taken =>
      ⟨stepCoherent known.1 taken,stepBefore known.1 spare.1 spare.2 taken known.2⟩)
    spared ⟨coherent,both⟩ ran
  exact kept.2

/- Placed between two others, a handler stays there while none of the three moves. -/
theorem placementStays {as : List Action} (coherent : Coherent fnmatchcase r)
    (calls : Calls r a s ref existOk) (there : s.heap[ref]? = some h)
    (pair : h.betweenHandlers = .pair (.text left) (.text right))
    (done : perform fnmatchcase r a = .ok t)
    (spared : Machine.Steps (step fnmatchcase) (fun r a => Spares fnmatchcase left r a ∧
      Spares fnmatchcase h.name r a ∧ Spares fnmatchcase right r a) t as)
    (ran : Machine.run (step fnmatchcase) t as = some u) :
    Before u.activeNames left h.name ∧ Before u.activeNames h.name right := by
  have placed := (requestPlaces coherent calls there done).2
  rw [Positioned,pair] at placed
  obtain ⟨_,early,next⟩ := placed
  have taken : step fnmatchcase r a = some t := by rw [step,done]; rfl
  have kept := stepCoherent coherent taken
  constructor
  · refine runBefore kept (Machine.stepsImp ?_ spared) ran early
    exact fun _ _ spare => ⟨spare.1,spare.2.1⟩
  · refine runBefore kept (Machine.stepsImp ?_ spared) ran (nextBefore next)
    exact fun _ _ spare => spare.2

theorem placement {as : List Action} (ran : Machine.run (step fnmatchcase) initial as = some r) :
    (∀ a s ref existOk h t, Calls r a s ref existOk → s.heap[ref]? = some h →
      perform fnmatchcase r a = .ok t →
      others t.activeNames h.name = others r.activeNames h.name ∧ Positioned r t h) ∧
    (∀ n missingOk t, unregisterHandler fnmatchcase r n missingOk = .ok t →
      others t.activeNames n = others r.activeNames n) ∧
    (∀ left right bs s, Before r.activeNames left right →
      Machine.Steps (step fnmatchcase)
        (fun r a => Spares fnmatchcase left r a ∧ Spares fnmatchcase right r a) r bs →
      Machine.run (step fnmatchcase) r bs = some s → Before s.activeNames left right) ∧
    ∀ a s ref existOk h left right t bs u, Calls r a s ref existOk → s.heap[ref]? = some h →
      h.betweenHandlers = .pair (.text left) (.text right) → perform fnmatchcase r a = .ok t →
      Machine.Steps (step fnmatchcase) (fun r a => Spares fnmatchcase left r a ∧
        Spares fnmatchcase h.name r a ∧ Spares fnmatchcase right r a) t bs →
      Machine.run (step fnmatchcase) t bs = some u →
      Before u.activeNames left h.name ∧ Before u.activeNames h.name right := by
  have coherent := runCoherent ran
  refine ⟨?_,?_,?_,?_⟩
  · intro a s ref existOk h t calls there done
    exact requestPlaces coherent calls there done
  · intro n missingOk t done
    rcases unregisterCases coherent n missingOk with ⟨t',taken,without⟩ | ⟨_,raised⟩
    · cases Except.ok.inj (taken.symm.trans done)
      exact removedOthers coherent without
    · rw [raised] at done
      contradiction
  · intro left right bs s both spared ran
    exact runBefore coherent spared ran both
  · intro a s ref existOk h left right t bs u calls there pair done spared ran
    exact placementStays coherent calls there pair done spared ran

def checking : Action :=
  .subscribe (one ["a"] .none (.pair (.text "audit") (.text "store"))) (.function "check" (.function 3))

def checked : Handler :=
  (newHandler "check" (.function 3)).staged (one ["a"] .none (.pair (.text "audit") (.text "store")))

def placedState : Registry := stateOf (perform exactly replaced checking)

def removedState : Registry := stateOf (perform exactly placedState (.unsubscribe "check" true))

theorem placementChecking :
    others placedState.activeNames "check" = others replaced.activeNames "check" ∧
    Positioned replaced placedState checked ∧
    others removedState.activeNames "check" = others placedState.activeNames "check" ∧
    Before removedState.activeNames "audit" "store" ∧
    Before placedState.activeNames "audit" "check" ∧ Before placedState.activeNames "check" "store" := by
  have calls : Calls replaced checking (allocated replaced checked) replaced.heap.length true :=
    .function _ "check" 3 rfl
  have first := @placement exactly replaced replacement rfl
  have second := @placement exactly placedState (replacement ++ [checking]) rfl
  have placed := first.1 checking _ _ _ checked placedState calls rfl rfl
  have apart : Before placedState.activeNames "audit" "store" := by decide
  have spared : Machine.Steps (step exactly)
      (fun r a => Spares exactly "audit" r a ∧ Spares exactly "store" r a) placedState
      [.unsubscribe "check" true] :=
    ⟨⟨fun _ _ => by decide,fun _ _ => by decide⟩,fun _ _ => trivial⟩
  have quiet : Machine.Steps (step exactly) (fun r a => Spares exactly "audit" r a ∧
      Spares exactly checked.name r a ∧ Spares exactly "store" r a) placedState [.queryNames "a"] :=
    ⟨⟨fun _ _ => by decide,fun _ _ => by decide,fun _ _ => by decide⟩,fun _ _ => trivial⟩
  have stays := first.2.2.2 checking _ _ _ checked "audit" "store" placedState [.queryNames "a"] _
    calls rfl rfl rfl quiet rfl
  exact ⟨placed.1,placed.2,second.2.1 "check" true removedState rfl,
    second.2.2.1 "audit" "store" _ _ apart spared rfl,stays⟩

end Apixis.Placement
