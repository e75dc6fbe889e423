import Apixis.Event.ChainCache

/-! A registration request comes down to one call of `register_handler`. Every
check of that call stands before the removal of the old entry, and the boundary
that was found is still in its bucket afterwards, so a call that raises has
touched nothing. Nothing here needs the registry to be well formed. -/
namespace Apixis.Registration
open HandlerRegistry PyError ChainCache

variable {fnmatchcase : String → String → Bool} {r s t u : Registry} {n m : String} {ref : Nat}
  {entry func : Handler} {existOk : Bool} {plan : Plan} {options : Options} {a : Action}

/- What may differ are instances that did not exist before. -/
structure Untouched (r s : Registry) : Prop where
  registry : s.registry = r.registry
  buckets : s.priorityBuckets = r.priorityBuckets
  caches : s.cachedChain = r.cachedChain
  order : s.registerOrder = r.registerOrder
  instances : ∀ (ref : Nat) (h : Handler), r.heap[ref]? = some h → s.heap[ref]? = some h

def isRegistration : Action → Bool
  | .subscribe _ _ => true
  | .register _ _ => true
  | .registerHandler _ _ => true
  | _ => false

def allocated (r : Registry) (h : Handler) : Registry := {r with heap := r.heap ++ [h]}

/- `register` passes the execution options of the instance on. -/
def kept (self : Handler) (options : Options) : Options :=
  {options with
    stopWhenError := some self.stopWhenError
    timeOut := self.timeOut
    background := some self.background}

/- The call of `register_handler` that a request makes, and the registry it finds. -/
inductive Calls (r : Registry) : Action → Registry → Nat → Bool → Prop
  | direct (ref : Nat) (existOk : Bool) : Calls r (.registerHandler ref existOk) r ref existOk
  | function (options : Options) (name : String) (id : Nat)
      (range : checkRange options.priority = .ok ()) :
      Calls r (.subscribe options (.function name (.function id)))
        (allocated r ((newHandler name (.function id)).staged options)) r.heap.length options.existOk
  | copied (options : Options) (ref : Nat) (func : Handler)
      (range : checkRange options.priority = .ok ()) (there : r.heap[ref]? = some func) :
      Calls r (.subscribe options (.instance ref)) (allocated r (func.staged options)) r.heap.length
        options.existOk
  | method (options : Options) (ref : Nat) (self : Handler)
      (range : checkRange options.priority = .ok ()) (there : r.heap[ref]? = some self) :
      Calls r (.register ref options) (allocated r (self.staged (kept self options))) r.heap.length
        options.existOk

theorem untouchedSelf (r : Registry) : Untouched r r := ⟨rfl,rfl,rfl,rfl,fun _ _ there => there⟩

theorem untouchedAllocated (r : Registry) (h : Handler) : Untouched r (allocated r h) :=
  ⟨rfl,rfl,rfl,rfl,fun _ _ there => Slots.appendOld there⟩

theorem callsUntouched (calls : Calls r a s ref existOk) : Untouched r s := by
  cases calls with
  | direct ref existOk => exact untouchedSelf r
  | function options name id range => exact untouchedAllocated r _
  | copied options ref func range there => exact untouchedAllocated r _
  | method options ref self range there => exact untouchedAllocated r _

theorem removeStays {k : ℚ} (different : m ≠ n) (inside : m ∈ Buckets.bucket r.priorityBuckets k) :
    m ∈ Buckets.bucket (removeFromBucket r n).priorityBuckets k := by
  unfold removeFromBucket
  split
  · exact inside
  · rename_i key index found
    have here := findSound found
    have stays : k = key → m ∈ (Buckets.bucket r.priorityBuckets key).eraseIdx index := by
      intro same
      subst same
      obtain ⟨i,at_⟩ := List.getElem?_of_mem inside
      refine List.mem_eraseIdx_iff_getElem?.mpr ⟨i,?_,at_⟩
      intro equal
      subst equal
      exact different (Option.some.inj (at_.symm.trans here))
    simp only
    split
    · rename_i empty
      simp only [Buckets.bucketErase]
      split
      · rename_i same
        rw [List.isEmpty_iff.mp empty] at stays
        exact stays same
      · exact inside
    · simp only [Buckets.bucketSet]
      split
      · rename_i same
        exact stays same
      · exact inside

theorem expiredBuckets {h : Handler} (expired : invalidateMatchingChains fnmatchcase r h = .ok s) :
    s.priorityBuckets = r.priorityBuckets ∧ s.heap = r.heap ∧ s.registry = r.registry := by
  simp only [invalidateMatchingChains,bindOk] at expired
  obtain ⟨names,_,last⟩ := expired
  cases last
  exact ⟨rfl,rfl,rfl⟩

theorem unregisterStays {k : ℚ} {missingOk : Bool} (different : m ≠ n)
    (done : unregisterHandler fnmatchcase r n missingOk = .ok s)
    (inside : m ∈ Buckets.bucket r.priorityBuckets k) : m ∈ Buckets.bucket s.priorityBuckets k := by
  unfold unregisterHandler at done
  split at done
  · simp only [bindOk,raiseIfOk,exists_const] at done
    cases done.2
    exact inside
  · simp only [bindOk] at done
    obtain ⟨t,expired,last⟩ := done
    cases last
    refine removeStays different ?_
    rw [(expiredBuckets expired).1]
    exact inside

/- Once the old entry is gone nothing raises. -/
theorem committedRegisters (there : r.heap[ref]? = some entry)
    (checked : checkEntry r entry existOk = .ok plan)
    (done : unregisterHandler fnmatchcase r entry.name true = .ok s) :
    ∃ t, registerHandler fnmatchcase r ref existOk = .ok t := by
  obtain ⟨i,index⟩ := indexKept checked (fun _ different => unregisterStays different done)
  obtain ⟨t,registers,_⟩ := registerCommits there checked done index
  exact ⟨t,registers⟩

theorem registeredCommitted (there : r.heap[ref]? = some entry)
    (done : registerHandler fnmatchcase r ref existOk = .ok t) :
    ∃ plan s i, Committed fnmatchcase r t ref entry plan s i := by
  have entire := done
  simp only [registerHandler,there,bindOk,leavingOk] at done
  obtain ⟨plan,checked,s,taken,i,index,_⟩ := done
  obtain ⟨again,registers,committed⟩ := registerCommits there checked taken index
  cases Except.ok.inj (registers.symm.trans entire)
  exact ⟨plan,s,i,committed⟩

theorem failedSame {error : PyError} (raised : registerHandler fnmatchcase r ref existOk = .error (error,s)) :
    s = r := by
  cases there : r.heap[ref]? with
  | none =>
    simp only [registerHandler,there] at raised
    cases raised
    rfl
  | some entry =>
    cases checked : checkEntry r entry existOk with
    | error error =>
      simp only [registerHandler,there,checked,PyError.leavingRaised,bind,Except.bind] at raised
      cases raised
      rfl
    | ok plan =>
      cases done : unregisterHandler fnmatchcase r entry.name true with
      | error error =>
        simp only [registerHandler,there,checked,done,PyError.leavingReturned,PyError.leavingRaised,bind,Except.bind] at raised
        cases raised
        rfl
      | ok taken =>
        obtain ⟨t,registered⟩ := committedRegisters there checked done
        rw [registered] at raised
        contradiction

theorem callsPass (calls : Calls r a s ref existOk) :
    (∀ failure, registerHandler fnmatchcase s ref existOk = .error failure →
      perform fnmatchcase r a = .error failure) ∧
    ∀ t, registerHandler fnmatchcase s ref existOk = .ok t → ∃ u, perform fnmatchcase r a = .ok u ∧
      u.priorityBuckets = t.priorityBuckets ∧ u.cachedChain = t.cachedChain := by
  cases calls with
  | direct ref existOk => exact ⟨fun _ raised => raised,fun t done => ⟨t,done,rfl,rfl⟩⟩
  | function options name id range =>
    have same : perform fnmatchcase r (.subscribe options (.function name (.function id))) =
        registerHandler fnmatchcase
          (allocated r ((newHandler name (.function id)).staged options)) r.heap.length
          options.existOk := by
      simp only [perform,subscribe,range]
      rfl
    rw [same]
    exact ⟨fun _ raised => raised,fun t done => ⟨t,done,rfl,rfl⟩⟩
  | copied options ref func range there =>
    simp only [perform,subscribe,range,there,PyError.leavingReturned,bind,Except.bind]
    constructor
    · intro failure raised
      rw [allocated] at raised
      rw [raised]
    · intro t done
      rw [allocated] at done
      rw [done]
      exact ⟨_,rfl,rfl,rfl⟩
  | method options ref self range there =>
    simp only [perform,register,subscribe,range,there,PyError.leavingReturned,bind,Except.bind]
    constructor
    · intro failure raised
      simp only [allocated,kept] at raised
      rw [raised]
    · intro t done
      simp only [allocated,kept] at done
      rw [done]
      exact ⟨_,rfl,rfl,rfl⟩

theorem subscribeRaises {subject : Subject} {error : PyError}
    (raised : checkRange options.priority = .error error) :
    subscribe fnmatchcase r options subject = .error (error,r) := by
  simp only [subscribe,raised,PyError.leavingRaised,bind,Except.bind]

theorem requestCalls (fnmatchcase : String → String → Bool) (r : Registry) (request : isRegistration a = true) :
    (∃ error, perform fnmatchcase r a = .error (error,r)) ∨
    ∃ s ref existOk, Calls r a s ref existOk := by
  cases a with
  | create handler => contradiction
  | unsubscribe name missingOk => contradiction
  | unregister ref missingOk => contradiction
  | unregisterHandler name missingOk => contradiction
  | query event => contradiction
  | queryNames event => contradiction
  | registerHandler ref existOk => exact .inr ⟨r,ref,existOk,.direct ref existOk⟩
  | subscribe options subject =>
    cases range : checkRange options.priority with
    | error error => exact .inl ⟨error,subscribeRaises range⟩
    | ok checked =>
      cases subject with
      | nameless => exact .inl ⟨_,by simp only [perform,subscribe,range]; rfl⟩
      | function name callback =>
        cases callback with
        | none => exact .inl ⟨_,by simp only [perform,subscribe,range]; rfl⟩
        | uncallable => exact .inl ⟨_,by simp only [perform,subscribe,range]; rfl⟩
        | function id => exact .inr ⟨_,_,_,.function options name id range⟩
      | «instance» ref =>
        cases there : r.heap[ref]? with
        | none => exact .inl ⟨_,by simp only [perform,subscribe,range,there]; rfl⟩
        | some func => exact .inr ⟨_,_,_,.copied options ref func range there⟩
  | register ref options =>
    cases there : r.heap[ref]? with
    | none => exact .inl ⟨_,by simp only [perform,register,there]; rfl⟩
    | some self =>
      cases range : checkRange options.priority with
      | error error =>
        refine .inl ⟨error,?_⟩
        simp only [perform,register,there]
        exact subscribeRaises range
      | ok checked => exact .inr ⟨_,_,_,.method options ref self range there⟩

theorem failedRequest {error : PyError} (request : isRegistration a = true)
    (raised : perform fnmatchcase r a = .error (error,s)) : Untouched r s := by
  rcases requestCalls fnmatchcase r request with ⟨first,early⟩ | ⟨t,ref,existOk,calls⟩
  · rw [early] at raised
    cases raised
    exact untouchedSelf r
  · obtain ⟨fails,passes⟩ := @callsPass fnmatchcase _ _ _ _ _ calls
    cases outcome : registerHandler fnmatchcase t ref existOk with
    | ok u =>
      obtain ⟨v,done,_⟩ := passes u outcome
      rw [done] at raised
      contradiction
    | error failure =>
      rw [fails failure outcome] at raised
      cases raised
      rw [failedSame outcome]
      exact callsUntouched calls

theorem failedRegistration (r : Registry) :
    (∀ a error s, isRegistration a = true → perform fnmatchcase r a = .error (error,s) →
      Untouched r s) ∧
    ∀ a s ref existOk entry plan t, Calls r a s ref existOk → s.heap[ref]? = some entry →
      checkEntry s entry existOk = .ok plan →
      unregisterHandler fnmatchcase s entry.name true = .ok t →
      ∃ u, perform fnmatchcase r a = .ok u := by
  constructor
  · intro a error s request raised
    exact failedRequest request raised
  · intro a s ref existOk entry plan t calls there checked done
    obtain ⟨u,registered⟩ := committedRegisters there checked done
    obtain ⟨v,performed,_⟩ := (callsPass calls).2 u registered
    exact ⟨v,performed⟩

/- The instance is registered already and its new boundary is not. -/
def stale : Options := one ["b"] .none (.pair .none (.text "missing"))

def behind : Options := one ["b"] .none (.pair (.text "audit") .none)

def raisedState : Registry := stateOf (perform exactly replaced (.register 0 stale))

def takenState : Except PyError Registry :=
  unregisterHandler exactly (allocated replaced ((newHandler "store" (.function 1)).staged behind))
    "store" true

theorem failedRegistrationReplaced :
    Untouched replaced raisedState ∧
    ∃ u, perform exactly replaced (.subscribe behind (.function "store" (.function 1))) = .ok u :=
  ⟨(@failedRegistration exactly replaced).1 (.register 0 stale) (notActive "missing") raisedState rfl rfl,
    (@failedRegistration exactly replaced).2 _ _ _ _ _ _
      ((takenState.toOption).getD initial) (.function behind "store" 1 rfl) rfl rfl rfl⟩

end Apixis.Registration
