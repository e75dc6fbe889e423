import Apixis.Event.Placement

/-! What an operation of the registry cannot reach: all registrations under other
names, and the names of the instances there are. -/
namespace Apixis.Confinement
open HandlerRegistry PyError ChainCache Registration Placement

variable {fnmatchcase : String → String → Bool} {r s t u : Registry} {n m : String} {ref : Nat}
  {h entry func : Handler} {existOk : Bool} {options : Options} {touched : Option String}

structure Confined (r t : Registry) (touched : Option String) : Prop where
  instances : ∀ (ref : Nat) (h : Handler), r.heap[ref]? = some h →
    ∃ h', t.heap[ref]? = some h' ∧ h'.name = h.name
  registry : ∀ m, touched ≠ some m → t.registry.get m = r.registry.get m

theorem confinedSame (registry : t.registry = r.registry) (heap : t.heap = r.heap)
    (touched : Option String) : Confined r t touched :=
  ⟨fun _ h there => ⟨h,by rw [heap]; exact there,rfl⟩,fun _ _ => by rw [registry]⟩

theorem confinedTrans (first : Confined r s touched) (second : Confined s t touched) :
    Confined r t touched := by
  refine ⟨?_,fun m other => (second.registry m other).trans (first.registry m other)⟩
  intro ref h there
  obtain ⟨h',there',same⟩ := first.instances ref h there
  obtain ⟨h'',there'',same'⟩ := second.instances ref h' there'
  exact ⟨h'',there'',same'.trans same⟩

theorem confinedGrown (r : Registry) (h : Handler) (touched : Option String) :
    Confined r (allocated r h) touched :=
  ⟨fun _ h there => ⟨h,Slots.appendOld there,rfl⟩,fun _ _ => rfl⟩

theorem confinedSet (there : r.heap[ref]? = some h) (named : entry.name = h.name)
    (heap : t.heap = r.heap.set ref entry)
    (registry : ∀ m, touched ≠ some m → t.registry.get m = r.registry.get m) : Confined r t touched := by
  refine ⟨?_,registry⟩
  intro ref' h' there'
  rw [heap]
  by_cases same : ref' = ref
  · subst same
    cases Option.some.inj (there.symm.trans there')
    exact ⟨entry,Slots.setSame there,named⟩
  · exact ⟨h',by rw [Slots.setOther (Ne.symm same)]; exact there',rfl⟩

theorem removedConfined (without : Removed fnmatchcase r s n) : Confined r s (some n) := by
  refine ⟨fun _ h there => ⟨h,by rw [without.heap]; exact there,rfl⟩,?_⟩
  intro m other
  rw [without.registry,if_neg (fun same => other (by rw [same]))]

theorem unregisterConfined (coherent : Coherent fnmatchcase r) (n : String) (missingOk : Bool) :
    Confined r (stateOf (leaving r (unregisterHandler fnmatchcase r n missingOk))) (some n) := by
  rcases unregisterCases coherent n missingOk with ⟨s,taken,without⟩ | ⟨_,raised⟩
  · rw [taken]
    exact removedConfined without
  · rw [raised]
    exact confinedSame rfl rfl _

theorem registeredConfined (there : r.heap[ref]? = some entry)
    (registered : Registered fnmatchcase r t ref entry) : Confined r t (some entry.name) := by
  obtain ⟨s,plan,i,without,entered⟩ := registered.moved
  refine confinedTrans (removedConfined without) ?_
  have found : s.heap[ref]? = some entry := by rw [without.heap]; exact there
  have named : (entry.admitted plan s.registerOrder).name = entry.name := rfl
  refine confinedSet found named entered.heap ?_
  intro m other
  rw [entered.registry,if_neg (fun same => other (by rw [same]))]

theorem registerConfined (coherent : Coherent fnmatchcase r) (there : r.heap[ref]? = some entry)
    (existOk : Bool) : Confined r (stateOf (registerHandler fnmatchcase r ref existOk)) (some entry.name) := by
  rcases registerCases coherent there existOk with ⟨error,raised⟩ | ⟨t,done,registered⟩
  · rw [raised]
    exact confinedSame rfl rfl _
  · rw [done]
    exact registeredConfined there registered

theorem subscribeCases (coherent : Coherent fnmatchcase r) (there : r.heap[ref]? = some func)
    (options : Options) :
    (∃ error u, subscribe fnmatchcase r options (.instance ref) = .error (error,u) ∧
      u.registry = r.registry ∧ Confined r u (some func.name) ∧ Coherent fnmatchcase u) ∨
    ∃ t, subscribe fnmatchcase r options (.instance ref) = .ok t ∧
      t.registry.get func.name = some ref ∧ Confined r t (some func.name) ∧ Coherent fnmatchcase t := by
  have kept := subscribeKeeps coherent options (.instance ref)
  unfold subscribe at kept ⊢
  cases range : checkRange options.priority with
  | error error => exact .inl ⟨error,r,rfl,rfl,confinedSame rfl rfl _,coherent⟩
  | ok u =>
    simp only [range,there,leavingReturned,bind,Except.bind] at kept ⊢
    have grown := allocatedCoherent coherent (func.staged options)
    have copy : ({r with heap := r.heap ++ [func.staged options]}).heap[r.heap.length]? =
        some (func.staged options) := Slots.appendNew
    rcases registerCases grown copy options.existOk with ⟨error,raised⟩ | ⟨t,done,registered⟩
    · rw [raised]
      exact .inl ⟨error,_,rfl,rfl,confinedGrown r _ _,grown⟩
    · rw [done] at kept ⊢
      obtain ⟨s,plan,i,without,entered⟩ := registered.moved
      obtain ⟨next,mine,here⟩ := registeredHandler registered copy
      have kept' : t.heap[ref]? = some func := by
        rw [entered.heap,without.heap,Slots.setOther (Ne.symm (Nat.ne_of_lt (Slots.inside there)))]
        exact Slots.appendOld there
      have named : next.name = func.name := by
        rw [entered.heap,without.heap,Slots.setSame copy] at here
        cases Option.some.inj here
        rfl
      refine .inr ⟨_,rfl,Dict.getSetSame _ _ _,?_,kept⟩
      refine confinedTrans (confinedGrown r (func.staged options) _) ?_
      have copied := registeredConfined copy registered
      refine confinedTrans copied ?_
      refine confinedSet kept' ?_ rfl ?_
      · rw [here]
        exact named
      · intro m other
        exact Dict.getSetOther (fun same => other (by rw [same]))

theorem registeredFree (there : r.heap[ref]? = some entry)
    (done : registerHandler fnmatchcase r ref false = .ok t) : r.registry.get entry.name = none := by
  simp only [registerHandler,there,bindOk,leavingOk] at done
  obtain ⟨plan,checked,_⟩ := done
  unfold checkEntry at checked
  simp only [bindOk,raiseIfOk,exists_const] at checked
  obtain ⟨_,free,_⟩ := checked
  simpa using free

theorem subscribedFree (there : r.heap[ref]? = some func) (fresh : options.existOk = false)
    (done : subscribe fnmatchcase r options (.instance ref) = .ok t) :
    r.registry.get func.name = none := by
  unfold subscribe at done
  cases range : checkRange options.priority with
  | error error =>
    rw [range] at done
    cases done
  | ok u =>
    simp only [range,there,fresh,leavingReturned,bind,Except.bind] at done
    cases outcome : registerHandler fnmatchcase {r with heap := r.heap ++ [func.staged options]}
        r.heap.length false with
    | error failure =>
      rw [outcome] at done
      cases done
    | ok v =>
      have free := registeredFree (Slots.appendNew : _ = some (func.staged options)) outcome
      exact free

theorem performConfined (coherent : Coherent fnmatchcase r) (a : Action) :
    Confined r (stateOf (perform fnmatchcase r a)) (named r a) := by
  have subscribes : ∀ options ref func, r.heap[ref]? = some func →
      Confined r (stateOf (subscribe fnmatchcase r options (.instance ref))) (some func.name) := by
    intro options ref func there
    rcases subscribeCases coherent there options with ⟨error,u,raised,_,confined,_⟩ | ⟨t,done,_,confined,_⟩
    · rw [raised]
      exact confined
    · rw [done]
      exact confined
  cases a with
  | create handler => exact confinedGrown r handler _
  | subscribe options subject =>
    cases subject with
    | nameless =>
      simp only [perform,subscribe]
      cases checkRange options.priority <;> exact confinedSame rfl rfl _
    | function name callback =>
      simp only [perform,subscribe,named]
      cases checkRange options.priority with
      | error error => exact confinedSame rfl rfl _
      | ok u =>
        cases callback with
        | none => exact confinedSame rfl rfl _
        | uncallable => exact confinedSame rfl rfl _
        | function id =>
          refine confinedTrans (confinedGrown r ((newHandler name (.function id)).staged options) _) ?_
          have grown := allocatedCoherent coherent ((newHandler name (.function id)).staged options)
          have registers := registerConfined grown Slots.appendNew options.existOk
          exact registers
    | «instance» ref =>
      cases there : r.heap[ref]? with
      | none =>
        simp only [perform,subscribe,there]
        cases checkRange options.priority <;> exact confinedSame rfl rfl _
      | some func =>
        simp only [named,there,Option.map_some]
        exact subscribes options ref func there
  | register ref options =>
    simp only [perform,register,named]
    cases there : r.heap[ref]? with
    | none => exact confinedSame rfl rfl _
    | some self => exact subscribes _ ref self there
  | registerHandler ref existOk =>
    simp only [perform,named]
    cases there : r.heap[ref]? with
    | none =>
      simp only [registerHandler,there]
      exact confinedSame rfl rfl _
    | some entry => exact registerConfined coherent there existOk
  | unsubscribe name missingOk => exact unregisterConfined coherent name missingOk
  | unregister ref missingOk =>
    simp only [perform,named]
    cases there : r.heap[ref]? with
    | none => exact confinedSame rfl rfl _
    | some self => exact unregisterConfined coherent self.name missingOk
  | unregisterHandler name missingOk => exact unregisterConfined coherent name missingOk
  | query event =>
    simp only [perform]
    rcases handlersCases coherent event with ⟨_,error,raised⟩ | ⟨_,refs,t,found,_,registry,heap,_⟩
    · rw [raised]
      exact confinedSame rfl rfl _
    · rw [found]
      exact confinedSame registry heap _
  | queryNames event =>
    simp only [perform]
    rcases chainCases coherent event with ⟨_,error,raised⟩ | ⟨_,t,found,registry,heap,_⟩
    · rw [raised]
      exact confinedSame rfl rfl _
    · rw [found]
      exact confinedSame registry heap _

end Apixis.Confinement
