import Apixis.Graph.NamespaceOwnership
import Apixis.Library.Glob

/-! Which events reach the handlers that graphs register for themselves: the dispatch
handler, the hooks and the fallback. -/
namespace Apixis.Routing
open HandlerRegistry PyError ChainCache Registration Placement Confinement Namespace NamespaceOwnership

section Heap
variable {fnmatchcase : String → String → Bool} {r s t u : Registry} {n : String} {ref : Nat}
  {h entry func : Handler} {existOk : Bool} {options : Options} {touched : Option String}

def Sealed (r t : Registry) (touched : Option String) : Prop :=
  ∀ (ref : Nat) (h : Handler), r.heap[ref]? = some h → touched ≠ some h.name → t.heap[ref]? = some h

theorem sealedSame (heap : t.heap = r.heap) (touched : Option String) : Sealed r t touched := by
  intro ref h there _
  rw [heap]
  exact there

theorem sealedGrown (r : Registry) (h : Handler) (touched : Option String) : Sealed r (allocated r h) touched :=
  fun _ _ there _ => Slots.appendOld there

theorem sealedTrans (first : Sealed r s touched) (second : Sealed s t touched) : Sealed r t touched :=
  fun ref h there other => second ref h (first ref h there other) other

theorem sealedSet (there : r.heap[ref]? = some h) (heap : t.heap = r.heap.set ref entry) :
    Sealed r t (some h.name) := by
  intro place own found other
  rw [heap,Slots.setOther]
  · exact found
  · rintro rfl
    cases Option.some.inj (there.symm.trans found)
    exact other rfl

theorem removeHeap (r : Registry) (n : String) : (removeFromBucket r n).heap = r.heap := by
  unfold removeFromBucket
  split <;> rfl

theorem unregisterHeap {missingOk : Bool} (done : unregisterHandler fnmatchcase r n missingOk = .ok s) :
    s.heap = r.heap := by
  unfold unregisterHandler at done
  split at done
  · obtain ⟨_,_,last⟩ := bindOk.mp done
    cases last
    rfl
  · obtain ⟨t,expired,last⟩ := bindOk.mp done
    cases last
    rw [removeHeap]
    exact (expiredBuckets expired).2.1

theorem unregisterSealed (r : Registry) (n : String) (missingOk : Bool) (touched : Option String) :
    Sealed r (stateOf (leaving r (unregisterHandler fnmatchcase r n missingOk))) touched := by
  cases done : unregisterHandler fnmatchcase r n missingOk with
  | error error => exact sealedSame rfl _
  | ok s => exact sealedSame (unregisterHeap done) _

theorem registerHeap (there : r.heap[ref]? = some entry)
    (done : registerHandler fnmatchcase r ref existOk = .ok t) :
    ∃ plan order, (∃ checkedOk, checkEntry r entry checkedOk = .ok plan) ∧
      t.heap = r.heap.set ref (entry.admitted plan order) := by
  obtain ⟨plan,s,i,committed⟩ := registeredCommitted there done
  refine ⟨plan,s.registerOrder,committed.checked,?_⟩
  rw [committed.heap,unregisterHeap committed.taken]

theorem registerSealed (there : r.heap[ref]? = some entry) (existOk : Bool) :
    Sealed r (stateOf (registerHandler fnmatchcase r ref existOk)) (some entry.name) := by
  cases done : registerHandler fnmatchcase r ref existOk with
  | error failure =>
    obtain ⟨error,s⟩ := failure
    cases failedSame done
    exact sealedSame rfl _
  | ok t =>
    obtain ⟨plan,order,_,heap⟩ := registerHeap there done
    exact sealedSet there heap

theorem subscribeHeap (there : r.heap[ref]? = some func) (options : Options) :
    (∃ error u, subscribe fnmatchcase r options (.instance ref) = .error (error,u) ∧ Sealed r u none) ∨
    ∃ t plan order, subscribe fnmatchcase r options (.instance ref) = .ok t ∧
      (∃ checkedOk, checkEntry (allocated r (func.staged options)) (func.staged options) checkedOk = .ok plan) ∧
      t.heap[ref]? = some ((func.staged options).admitted plan order) ∧ Sealed r t (some func.name) := by
  unfold subscribe
  cases range : checkRange options.priority with
  | error error => exact .inl ⟨error,r,rfl,sealedSame rfl _⟩
  | ok passed =>
    simp only [there,leavingReturned,bind,Except.bind]
    have copy : (allocated r (func.staged options)).heap[r.heap.length]? = some (func.staged options) :=
      Slots.appendNew
    cases done : registerHandler fnmatchcase (allocated r (func.staged options)) r.heap.length options.existOk with
    | error failure =>
      obtain ⟨error,s⟩ := failure
      cases failedSame done
      unfold allocated at done
      rw [done]
      exact .inl ⟨error,_,rfl,sealedGrown r _ _⟩
    | ok t =>
      obtain ⟨plan,order,checked,heap⟩ := registerHeap copy done
      unfold allocated at done
      rw [done]
      have copied : t.heap[r.heap.length]? = some ((func.staged options).admitted plan order) := by
        rw [heap]
        exact Slots.setSame copy
      have kept : t.heap[ref]? = some func := by
        rw [heap,Slots.setOther (Ne.symm (Nat.ne_of_lt (Slots.inside there)))]
        exact Slots.appendOld there
      refine .inr ⟨_,plan,order,rfl,checked,?_,?_⟩
      · rw [copied]
        exact Slots.setSame kept
      · have set : Sealed (allocated r (func.staged options)) t (some (func.staged options).name) :=
          sealedSet copy heap
        have first : Sealed r t (some func.name) := sealedTrans (sealedGrown r (func.staged options) _) set
        exact sealedTrans first (sealedSet kept rfl)

theorem performSealed (coherent : Coherent fnmatchcase r) (a : HandlerRegistry.Action) :
    Sealed r (stateOf (HandlerRegistry.perform fnmatchcase r a)) (named r a) := by
  have subscribes : ∀ options ref func, r.heap[ref]? = some func →
      Sealed r (stateOf (subscribe fnmatchcase r options (.instance ref))) (some func.name) := by
    intro options ref func there
    rcases subscribeHeap there options with ⟨error,u,raised,kept⟩ | ⟨t,plan,order,done,_,_,kept⟩
    · rw [raised]
      exact fun place h found _ => kept place h found (by simp)
    · rw [done]
      exact kept
  cases a with
  | create handler => exact sealedGrown r handler _
  | subscribe options subject =>
    cases subject with
    | nameless =>
      simp only [HandlerRegistry.perform,subscribe]
      cases checkRange options.priority <;> exact sealedSame rfl _
    | function name callback =>
      simp only [HandlerRegistry.perform,subscribe,named]
      cases checkRange options.priority with
      | error error => exact sealedSame rfl _
      | ok passed =>
        cases callback with
        | none => exact sealedSame rfl _
        | uncallable => exact sealedSame rfl _
        | function id =>
          refine sealedTrans (sealedGrown r ((newHandler name (.function id)).staged options) _) ?_
          have registers := @registerSealed fnmatchcase
            (allocated r ((newHandler name (.function id)).staged options)) _ _ Slots.appendNew options.existOk
          exact registers
    | «instance» ref =>
      cases there : r.heap[ref]? with
      | none =>
        simp only [HandlerRegistry.perform,subscribe,there]
        cases checkRange options.priority <;> exact sealedSame rfl _
      | some func =>
        simp only [named,there,Option.map_some]
        exact subscribes options ref func there
  | register ref options =>
    simp only [HandlerRegistry.perform,register,named]
    cases there : r.heap[ref]? with
    | none => exact sealedSame rfl _
    | some self => exact subscribes _ ref self there
  | registerHandler ref existOk =>
    simp only [HandlerRegistry.perform,named]
    cases there : r.heap[ref]? with
    | none =>
      simp only [registerHandler,there]
      exact sealedSame rfl _
    | some entry => exact registerSealed there existOk
  | unsubscribe name missingOk => exact unregisterSealed r name missingOk _
  | unregister ref missingOk =>
    simp only [HandlerRegistry.perform]
    cases there : r.heap[ref]? with
    | none => exact sealedSame rfl _
    | some self => exact unregisterSealed r self.name missingOk _
  | unregisterHandler name missingOk => exact unregisterSealed r name missingOk _
  | query event =>
    simp only [HandlerRegistry.perform]
    rcases handlersCases coherent event with ⟨_,error,raised⟩ | ⟨_,refs,t,found,_,_,heap,_⟩
    · rw [raised]
      exact sealedSame rfl _
    · rw [found]
      exact sealedSame heap _
  | queryNames event =>
    simp only [HandlerRegistry.perform]
    rcases chainCases coherent event with ⟨_,error,raised⟩ | ⟨_,t,found,_,heap,_⟩
    · rw [raised]
      exact sealedSame rfl _
    · rw [found]
      exact sealedSame heap _

end Heap

section Names
variable {ns other : String}

theorem validPlain (valid : validateNamespace ns = .ok ()) : Glob.Plain ns.toList := by
  have clean := raiseIfOk.mp valid
  intro c inside
  have away := List.any_eq_false.mp clean c inside
  refine ⟨?_,?_,?_⟩ <;> rintro rfl <;> exact away (by decide)

theorem orGlobalPlain (valid : validateNamespace ns = .ok ()) : Glob.Plain (orGlobal ns).toList := by
  unfold orGlobal
  split
  · exact (by decide : Glob.Plain globalNs.toList)
  · exact validPlain valid

theorem plainAppend {a b : String} (left : Glob.Plain a.toList) (right : Glob.Plain b.toList) :
    Glob.Plain (a ++ b).toList := by
  intro c inside
  rw [String.toList_append] at inside
  exact (List.mem_append.mp inside).elim (left c) (right c)

theorem dispatchPlain (valid : validateNamespace ns = .ok ()) : Glob.Plain (getGraphDispatchName ns).toList :=
  plainAppend (show Glob.Plain (graphDispatch ++ "_").toList by decide) (orGlobalPlain valid)

theorem interruptedPlain (valid : validateNamespace ns = .ok ()) : Glob.Plain (getGraphInterruptedName ns).toList :=
  plainAppend (show Glob.Plain (graphInterrupted ++ "_").toList by decide) (orGlobalPlain valid)

theorem appendApart {stem a b : String} (same : stem ++ a = stem ++ b) : a = b := by
  have texts := congrArg String.toList same
  rw [String.toList_append,String.toList_append] at texts
  exact String.toList_injective (List.append_cancel_left texts)

theorem dispatchApart (same : getGraphDispatchName ns = getGraphDispatchName other) : orGlobal ns = orGlobal other :=
  appendApart same

theorem interruptedApart (same : getGraphInterruptedName ns = getGraphInterruptedName other) :
    orGlobal ns = orGlobal other := appendApart same

theorem dispatchNinth (ns : String) : (getGraphDispatchName ns).toList[8]? = some 'd' := by
  simp [getGraphDispatchName,graphDispatch]

theorem interruptedNinth (ns : String) : (getGraphInterruptedName ns).toList[8]? = some 'i' := by
  simp [getGraphInterruptedName,graphInterrupted]

theorem fallbackNinth (ns : String) : (fallbackName ns).toList[8]? = some 'i' := by
  have long : 8 < "__graph_interrupted_fallback__".toList.length := by decide
  have ninth : "__graph_interrupted_fallback__".toList[8]? = some 'i' := by decide
  have split : (fallbackName ns).toList = "__graph_interrupted_fallback__".toList ++ ns.toList := String.toList_append
  exact (congrArg (fun l => l[8]?) split).trans ((List.getElem?_append_left long).trans ninth)

theorem dispatchNotInterrupted : getGraphDispatchName ns ≠ getGraphInterruptedName other := by
  intro same
  have ninth := dispatchNinth ns
  rw [same,interruptedNinth] at ninth
  cases ninth

theorem dispatchNotFallback : getGraphDispatchName ns ≠ fallbackName other := by
  intro same
  have ninth := dispatchNinth ns
  rw [same,fallbackNinth] at ninth
  cases ninth

end Names

section Own
variable {r : Registry} {entry h : Handler} {plan : Plan} {ns n pattern : String} {order : Nat} {checkedOk : Bool}

def awaits (ns n : String) : String :=
  if n = getGraphDispatchName ns then getGraphDispatchName ns else getGraphInterruptedName ns

/- What a graph has registered under one of its names. -/
structure Own (ns n : String) (h : Handler) : Prop where
  valid : validateNamespace ns = .ok ()
  named : ns ≠ ""
  subscribe : h.subscribe = ofStrings [awaits ns n]
  filters : h.filterEvent = ofStrings []
  priority : h.priority = if n = fallbackName ns then trailing else .number (.finite 1) "1"

theorem checkedPatterns (checked : checkEntry r entry checkedOk = .ok plan)
    (subscribe : entry.subscribe = .items [.text pattern]) (filters : entry.filterEvent.truthy = false) :
    plan.subscriptions = [pattern] ∧ plan.filters = [] := by
  unfold checkEntry at checked
  simp only [bindOk,raiseIfOk,exists_const] at checked
  obtain ⟨_,_,_,_,_,_,_,_,subscriptions,normal,filtered,none_,key,_,last⟩ := checked
  cases last
  rw [subscribe] at normal
  unfold normalisePatterns at normal
  simp only [bindOk,raiseIfOk,exists_const] at normal
  obtain ⟨supplied,iterated,_,_,last⟩ := normal
  cases iterated
  cases last
  unfold normaliseFilters at none_
  rw [filters] at none_
  cases none_
  exact ⟨rfl,rfl⟩

end Own

section Worlds
variable {fnmatchcase : String → String → Bool} {half : Option Nat} {w u v : World} {g ref : Nat}
  {graph next : NodeGraph} {r : Registry} {n name : String} {h : Handler}

/- Every handler that a graph keeps is as the graph has made it. -/
def Made (w : World) : Prop := ∀ (g : Nat) (graph : NodeGraph) (n : String) (ref : Nat),
  w.graphs[g]? = some graph → graph.handlers.get n = some ref →
  ∃ h, w.registry.heap[ref]? = some h ∧ Own graph.nameSpace n h

/- Graphs keep no handlers but those they had, and no instance changes. -/
structure Fewer (w u : World) : Prop where
  heap : u.registry.heap = w.registry.heap
  kept : ∀ (g : Nat) (graph : NodeGraph) (n : String) (ref : Nat), u.graphs[g]? = some graph →
    graph.handlers.get n = some ref → ∃ old, w.graphs[g]? = some old ∧
      old.nameSpace = graph.nameSpace ∧ old.handlers.get n = some ref

theorem fewerSelf (w : World) : Fewer w w := ⟨rfl,fun _ graph _ _ there known => ⟨graph,there,rfl,known⟩⟩

theorem fewerTrans (first : Fewer w v) (second : Fewer v u) : Fewer w u := by
  refine ⟨second.heap.trans first.heap,?_⟩
  intro g graph n ref there known
  obtain ⟨middle,here,same,mine⟩ := second.kept g graph n ref there known
  obtain ⟨old,before,same',mine'⟩ := first.kept g middle n ref here mine
  exact ⟨old,before,same'.trans same,mine'⟩

theorem fewerMade (fewer : Fewer w u) (made : Made w) : Made u := by
  intro g graph n ref there known
  obtain ⟨old,before,same,mine⟩ := fewer.kept g graph n ref there known
  obtain ⟨h,inside,own⟩ := made g old n ref before mine
  exact ⟨h,by rw [fewer.heap]; exact inside,same ▸ own⟩

theorem fewerSet (there : w.graphs[g]? = some graph) (graphs : u.graphs = w.graphs.set g next)
    (heap : u.registry.heap = w.registry.heap) (same : next.nameSpace = graph.nameSpace)
    (less : ∀ n ref, next.handlers.get n = some ref → graph.handlers.get n = some ref) : Fewer w u := by
  refine ⟨heap,?_⟩
  intro o x n ref found known
  rw [graphs] at found
  rcases Slots.setCases found with ⟨rfl,rfl⟩ | ⟨_,old⟩
  · exact ⟨graph,there,same.symm,less n ref known⟩
  · exact ⟨x,old,rfl,known⟩

theorem unregisterAllHeap (r : Registry) (l : List (String × Nat)) :
    (stateOf (unregisterAll fnmatchcase r l)).heap = r.heap := by
  induction l generalizing r with
  | nil => rfl
  | cons e rest ih =>
    obtain ⟨name,handler⟩ := e
    simp only [unregisterAll]
    split
    · cases done : unregisterHandler fnmatchcase r name true with
      | error error => rfl
      | ok s =>
        have tail := ih s
        rw [unregisterHeap done] at tail
        exact tail
    · exact ih r

theorem unregisterFewer (w : World) (g : Nat) : Fewer w (stateOf (unregisterHandlers fnmatchcase w g)) := by
  unfold unregisterHandlers
  cases there : w.graphs[g]? with
  | none => exact fewerSelf w
  | some graph =>
    have heap := @unregisterAllHeap fnmatchcase w.registry graph.handlers.entries
    cases done : unregisterAll fnmatchcase w.registry graph.handlers.entries with
    | error failure =>
      rw [done] at heap
      simp only [done,World.calling,bind,Except.bind]
      exact ⟨heap,fun _ x _ _ found known => ⟨x,found,rfl,known⟩⟩
    | ok r =>
      rw [done] at heap
      simp only [done,World.calling,bind,Except.bind]
      exact fewerSet there rfl heap rfl (fun _ _ known => by cases known)

theorem releaseFewer (w : World) (g : Nat) : Fewer w (releaseEntry w g) := by
  unfold releaseEntry
  split
  · exact fewerSelf w
  · split
    · exact ⟨rfl,fun _ x _ _ found known => ⟨x,found,rfl,known⟩⟩
    · exact fewerSelf w

theorem decomposeFewer (w : World) (g : Nat) (force : Bool) :
    Fewer w (stateOf (decompose fnmatchcase w g force)) := by
  cases there : w.graphs[g]? with
  | none =>
    simp only [decompose,there]
    exact fewerSelf w
  | some graph =>
    cases live : graph.decomposed with
    | true =>
      rw [decomposedAgain there live]
      exact fewerSelf w
    | false =>
      cases busy : (graph.contexts != 0 && !force) with
      | true =>
        simp only [decompose,there,live,busy,raiseIf,leavingRaised,bind,Except.bind,Bool.false_eq_true,
          if_false,if_true]
        exact fewerSelf w
      | false =>
        have retired : Fewer w (w.update g {graph with decomposed := true, contexts := 0}) :=
          fewerSet there rfl rfl rfl (fun _ _ known => known)
        have bare := @unregisterFewer fnmatchcase (w.update g {graph with decomposed := true, contexts := 0}) g
        simp only [decompose,there,live,busy,raiseIf,leavingReturned,bind,Except.bind,Bool.false_eq_true,
          if_false]
        cases done : unregisterHandlers fnmatchcase
            (w.update g {graph with decomposed := true, contexts := 0}) g with
        | error failure =>
          rw [done] at bare
          exact fewerTrans retired bare
        | ok v =>
          rw [done] at bare
          exact fewerTrans (fewerTrans retired bare) (releaseFewer v g)

theorem acquireFewer (w : World) (g : Nat) (existOk : Bool) :
    Fewer w (stateOf (acquireNamespace fnmatchcase w g existOk)) := by
  unfold acquireNamespace
  cases there : w.graphs[g]? with
  | none => exact fewerSelf w
  | some graph =>
    cases valid : validateNamespace graph.nameSpace with
    | error error =>
      simp only [valid,leavingRaised,bind,Except.bind]
      exact fewerSelf w
    | ok passed =>
      have claimed : ∀ x : World, Fewer x (x.claim graph.nameSpace g) := fun x =>
        ⟨rfl,fun _ y _ _ found known => ⟨y,found,rfl,known⟩⟩
      simp only [valid,leavingReturned,bind,Except.bind]
      cases mapped : w.namespaceGraphs.get graph.nameSpace with
      | none => exact claimed w
      | some owner =>
        by_cases own : owner = g
        · simp only [own,if_true]
          exact claimed w
        · simp only [own,if_false]
          cases existOk with
          | false => exact fewerSelf w
          | true =>
            have retired := @decomposeFewer fnmatchcase w owner true
            simp only [raiseIf,Bool.not_true,Bool.false_eq_true,if_false,releaseNamespace,if_true,
              leavingReturned,bind,Except.bind]
            cases done : decompose fnmatchcase w owner true with
            | error failure =>
              rw [done] at retired
              exact retired
            | ok v =>
              rw [done] at retired
              exact fewerTrans (fewerTrans retired (releaseFewer v owner)) (claimed _)

theorem ownedKept (held : Held fnmatchcase half w) (sealed_ : Sealed w.registry r (some name))
    (free : w.registry.registry.get name = none) {x : NodeGraph} (there : w.graphs[g]? = some x)
    (known : x.handlers.get n = some ref) : r.heap[ref]? = w.registry.heap[ref]? := by
  have registered := held.owned g x n ref there known
  obtain ⟨h,inside,entry⟩ := held.coherent.known n ref registered
  rw [inside]
  refine sealed_ ref h inside ?_
  intro same
  rw [Option.some.inj same,entry.name,registered] at free
  cases free

theorem registryMade (made : Made w) (kept : ∀ (g : Nat) (x : NodeGraph) (n : String) (ref : Nat),
    w.graphs[g]? = some x → x.handlers.get n = some ref → r.heap[ref]? = w.registry.heap[ref]?) :
    Made {w with registry := r} := by
  intro g x n ref there known
  obtain ⟨h,inside,own⟩ := made g x n ref there known
  exact ⟨h,(kept g x n ref there known).trans inside,own⟩

theorem failedMade (made : Made w) (sealed_ : Sealed w.registry r none) : Made {w with registry := r} := by
  refine registryMade made ?_
  intro g x n ref there known
  obtain ⟨h,inside,_⟩ := made g x n ref there known
  rw [inside]
  exact sealed_ ref h inside (by simp)

theorem keptMade (held : Held fnmatchcase half w) (made : Made w) (there : w.graphs[g]? = some graph)
    (sealed_ : Sealed w.registry r (some name)) (free : w.registry.registry.get name = none)
    (inside : r.heap[ref]? = some h) (own : Own graph.nameSpace name h) : Made (w.keep g graph r name ref) := by
  have others := registryMade made (fun o x n i here known => ownedKept held sealed_ free (n := n) here known)
  intro o x n i here known
  rcases Slots.setCases here with ⟨rfl,rfl⟩ | ⟨_,old⟩
  · have known : (graph.handlers.set name ref).get n = some i := known
    rw [Dict.getSet] at known
    split at known
    · rename_i same
      cases Option.some.inj known
      exact ⟨h,inside,same ▸ own⟩
    · exact others g graph n i there known
  · exact others o x n i old known

structure Checked (ns : String) : Prop where
  valid : validateNamespace ns = .ok ()
  named : ns ≠ ""

theorem onceOwn {ns n event : String} {plan : Plan} {checkedOk : Bool} (order : Nat) (checked_ : Checked ns)
    (other : n ≠ fallbackName ns) (event_ : awaits ns n = event)
    (checked : checkEntry r ((adapter n).staged (once event)) checkedOk = .ok plan) :
    Own ns n (((adapter n).staged (once event)).admitted plan order) := by
  obtain ⟨subscriptions,filters⟩ := checkedPatterns checked rfl rfl
  subst event_
  refine ⟨checked_.valid,checked_.named,congrArg ofStrings subscriptions,congrArg ofStrings filters,?_⟩
  rw [if_neg other]
  rfl

theorem dispatchMade (held : Held fnmatchcase half w) (made : Made w) (there : w.graphs[g]? = some graph)
    (checked_ : Checked graph.nameSpace) : Made (stateOf (registerDispatchHandler fnmatchcase w g)) := by
  have event : awaits graph.nameSpace (getGraphDispatchName graph.nameSpace) =
      getGraphDispatchName graph.nameSpace := if_pos rfl
  have created : (allocated w.registry (adapter (getGraphDispatchName graph.nameSpace))).heap[w.registry.heap.length]? =
      some (adapter (getGraphDispatchName graph.nameSpace)) := Slots.appendNew
  have grown := sealedGrown w.registry (adapter (getGraphDispatchName graph.nameSpace))
  simp only [registerDispatchHandler,there]
  rcases @subscribeHeap fnmatchcase _ _ _ created (once (getGraphDispatchName graph.nameSpace)) with
    ⟨error,u,raised,kept⟩ | ⟨t,plan,order,done,⟨checkedOk,checked⟩,inside,kept⟩
  · unfold allocated at raised
    rw [raised]
    exact failedMade made (sealedTrans (grown none) kept)
  · have free : w.registry.registry.get (getGraphDispatchName graph.nameSpace) = none :=
      subscribedFree created rfl done
    unfold allocated at done
    rw [done]
    have own := onceOwn order checked_ dispatchNotFallback event checked
    exact keptMade held made there (sealedTrans (grown _) kept) free inside own

theorem fallbackMade (held : Held fnmatchcase half w) (made : Made w) (there : w.graphs[g]? = some graph)
    (checked_ : Checked graph.nameSpace) : Made (stateOf (registerInterruptedHandler fnmatchcase w g)) := by
  have event : awaits graph.nameSpace (fallbackName graph.nameSpace) = getGraphInterruptedName graph.nameSpace :=
    if_neg (Ne.symm dispatchNotFallback)
  simp only [registerInterruptedHandler,there]
  generalize entry_ : ({adapter (fallbackName graph.nameSpace) with
    subscribe := .items [.text (getGraphInterruptedName graph.nameSpace)]
    priority := trailing} : Handler) = entry
  have named : entry.name = fallbackName graph.nameSpace := by rw [← entry_]; rfl
  have created : (allocated w.registry entry).heap[w.registry.heap.length]? = some entry := Slots.appendNew
  have grown := sealedGrown w.registry entry
  cases done : registerHandler fnmatchcase (allocated w.registry entry) w.registry.heap.length false with
  | error failure =>
    obtain ⟨error,u⟩ := failure
    cases failedSame done
    unfold allocated at done
    rw [done]
    exact failedMade made (grown none)
  | ok t =>
    have free : (allocated w.registry entry).registry.get entry.name = none := registeredFree created done
    obtain ⟨plan,order,⟨checkedOk,checked⟩,heap⟩ := registerHeap created done
    unfold allocated at done
    rw [done]
    have inside : t.heap[w.registry.heap.length]? = some (entry.admitted plan order) := by
      rw [heap]
      exact Slots.setSame created
    have kept := sealedTrans (grown (some entry.name)) (sealedSet created heap)
    rw [named] at free kept
    refine keptMade held made there kept free inside ?_
    obtain ⟨subscriptions,filters⟩ := checkedPatterns checked (by rw [← entry_]) (by rw [← entry_]; rfl)
    refine ⟨checked_.valid,checked_.named,?_,congrArg ofStrings filters,?_⟩
    · rw [event]
      exact congrArg ofStrings subscriptions
    · rw [if_pos rfl,← entry_]
      rfl

/- A live graph's hook cannot take the name of its dispatch handler or of its fallback. -/
theorem hookMade (held : Held fnmatchcase none w) (made : Made w) (g : Nat) (name : Option String) :
    Made (stateOf (addInterruptedHook fnmatchcase w g name)) := by
  unfold addInterruptedHook
  cases there : w.graphs[g]? with
  | none => exact made
  | some graph =>
    cases live : graph.decomposed with
    | true =>
      simp only [live,raiseIf,if_true,leavingRaised,bind,Except.bind]
      exact made
    | false =>
      simp only [live,raiseIf,Bool.false_eq_true,if_false,leavingReturned,bind,Except.bind]
      generalize (if name.getD "" = "" then getGraphInterruptedName graph.nameSpace else name.getD "") = n
      obtain ⟨dispatch,fallback⟩ := held.both g graph there live
      have taken : ∀ m, graph.handlers.get m ≠ none → w.registry.registry.get m ≠ none := by
        intro m known
        obtain ⟨ref,mine⟩ := Option.ne_none_iff_exists'.mp known
        rw [held.owned g graph m ref there mine]
        simp
      have checked_ : Checked graph.nameSpace := by
        obtain ⟨ref,mine⟩ := Option.ne_none_iff_exists'.mp dispatch
        obtain ⟨h,_,own⟩ := made g graph _ ref there mine
        exact ⟨own.valid,own.named⟩
      have created : (allocated w.registry (adapter n)).heap[w.registry.heap.length]? = some (adapter n) :=
        Slots.appendNew
      have grown := sealedGrown w.registry (adapter n)
      rcases @subscribeHeap fnmatchcase _ _ _ created (once (getGraphInterruptedName graph.nameSpace)) with
        ⟨error,u,raised,kept⟩ | ⟨t,plan,order,done,⟨checkedOk,checked⟩,inside,kept⟩
      · unfold allocated at raised
        rw [raised]
        exact failedMade made (sealedTrans (grown none) kept)
      · have free : w.registry.registry.get n = none := subscribedFree created rfl done
        have event : awaits graph.nameSpace n = getGraphInterruptedName graph.nameSpace := by
          refine if_neg ?_
          rintro rfl
          exact taken _ dispatch free
        have other : n ≠ fallbackName graph.nameSpace := by
          rintro rfl
          exact taken _ fallback free
        have found : t.registry.get n = some w.registry.heap.length := by
          rcases subscribeCases (allocatedCoherent held.coherent (adapter n)) created
              (once (getGraphInterruptedName graph.nameSpace)) with ⟨_,_,raised,_⟩ | ⟨t',done',found,_⟩
          · cases done.symm.trans raised
          · cases done.symm.trans done'
            exact found
        have own := onceOwn order checked_ other event checked
        unfold allocated at done
        rw [done]
        simp only [World.calling,found]
        exact keptMade held made there (sealedTrans (grown _) kept) free inside own

theorem createdMade (made : Made w) (ns : String) : Made (w.creating ns) := by
  intro g x n ref there known
  rcases Slots.appendCases there with ⟨_,rfl⟩ | old
  · cases known
  · exact made g x n ref old known

theorem finishMade (made : Made w) (g : Nat) : Made (w.finish g) := by
  unfold World.finish
  cases there : w.graphs[g]? with
  | none => exact made
  | some graph => exact fewerMade (fewerSet there rfl rfl rfl (fun _ _ known => known)) made

theorem registrationsMade (held : Held fnmatchcase (some g) w) (made : Made w) (there : w.graphs[g]? = some graph)
    (checked_ : Checked graph.nameSpace) : Made (stateOf (registerDispatchHandler fnmatchcase w g >>=
      fun registered => registerInterruptedHandler fnmatchcase registered g)) := by
  have first := dispatchMade held made there checked_
  have adds := dispatchAdds held there
  cases done : registerDispatchHandler fnmatchcase w g with
  | error failure =>
    rw [done] at first
    exact first
  | ok c =>
    rw [done] at first adds
    obtain ⟨r,ref,rfl,held',_⟩ := adds
    have here : (w.keep g graph r (getGraphDispatchName graph.nameSpace) ref).graphs[g]? =
        some {graph with handlers := graph.handlers.set (getGraphDispatchName graph.nameSpace) ref} :=
      Slots.setSame there
    exact fallbackMade held' first here checked_

theorem takenBack {b : World} (made : Made b) (g : Nat) (error : PyError) :
    Made (stateOf (do
      let bare ← unregisterHandlers fnmatchcase b g
      throw (error,releaseEntry bare g))) := by
  have bare := @unregisterFewer fnmatchcase b g
  cases removed : unregisterHandlers fnmatchcase b g with
  | error failure =>
    rw [removed] at bare
    exact fewerMade bare made
  | ok v =>
    rw [removed] at bare
    exact fewerMade (fewerTrans bare (releaseFewer v g)) made

theorem constructMade (held : Held fnmatchcase none w) (made : Made w) (definition : Except PyError Unit)
    {ns : String} (named : ns ≠ "") (existOk : Bool) :
    Made (stateOf (construct fnmatchcase w definition ns existOk)) := by
  unfold construct
  cases definition with
  | error error => exact made
  | ok defined =>
    simp only [leavingReturned,bind,Except.bind]
    have grown := createdHeld held ns
    have blank := createdBlank w ns
    have before := createdMade made ns
    have fewer := @acquireFewer fnmatchcase (w.creating ns) w.graphs.length existOk
    rcases acquireCases grown blank existOk with ⟨error,raised⟩ | ⟨a,done,valid,_,held',blank'⟩
    · rw [raised]
      exact before
    · rw [done] at fewer ⊢
      have both := registrationsMade held' (fewerMade fewer before) blank'.there ⟨valid,named⟩
      simp only [bind,Except.bind] at both ⊢
      cases first : registerDispatchHandler fnmatchcase a w.graphs.length with
      | error failure =>
        rw [first] at both
        exact takenBack both _ _
      | ok c =>
        rw [first] at both
        cases second : registerInterruptedHandler fnmatchcase c w.graphs.length with
        | error failure =>
          simp only [second] at both ⊢
          exact takenBack both _ _
        | ok b =>
          simp only [second] at both ⊢
          exact finishMade both _

theorem chosenFilled (usingNamespace : Option String) (nextId : Nat) : chosen usingNamespace nextId ≠ "" := by
  unfold chosen
  split
  · intro same
    have digits := congrArg String.toList same
    rw [Nat.toString_eq_repr,Nat.toList_repr] at digits
    exact Nat.toDigits_ne_nil digits
  · rename_i filled
    exact filled

theorem stepMade {a : Namespace.Action} (held : Held fnmatchcase none w) (made : Made w)
    (taken : Namespace.step fnmatchcase w a = some u) : Made u := by
  unfold Namespace.step at taken
  split at taken <;> try contradiction
  rename_i permitted
  cases Option.some.inj taken
  cases a with
  | construct definition usingNamespace nextId existOk =>
    exact constructMade held made definition (chosenFilled usingNamespace nextId) existOk
  | addInterruptedHook g name => exact hookMade held made g name
  | exit g => exact fewerMade (decomposeFewer w g true) made
  | decompose g force => exact fewerMade (decomposeFewer w g force) made
  | user a =>
    refine registryMade made ?_
    intro g x n ref there known
    obtain ⟨h,inside,_⟩ := made g x n ref there known
    obtain ⟨h',inside',entry⟩ := held.coherent.known n ref (held.owned g x n ref there known)
    cases Option.some.inj (inside.symm.trans inside')
    rw [inside]
    refine performSealed held.coherent a ref h inside ?_
    intro touched
    have owns : w.owns h.name = true := by
      refine List.any_eq_true.mpr ⟨x,List.mem_of_getElem? there,?_⟩
      rw [entry.name,known]
      rfl
    simp only [allowed,touched,owns] at permitted
    cases permitted
  | invoke g contexts =>
    simp only [Namespace.perform]
    cases there : w.graphs[g]? with
    | none => exact made
    | some graph =>
      cases live : graph.decomposed with
      | true =>
        simp only [live,if_true]
        exact made
      | false =>
        simp only [live,Bool.false_eq_true,if_false]
        exact fewerMade (fewerSet there rfl rfl rfl (fun _ _ known => known)) made

theorem runMade {acts : List Namespace.Action}
    (ran : Machine.run (Namespace.step fnmatchcase) Namespace.initial acts = some w) :
    Held fnmatchcase none w ∧ Made w := by
  refine Machine.invariant (P := fun x => Held fnmatchcase none x ∧ Made x) ?_ ⟨initialHeld,?_⟩ ran
  · intro m a t kept taken
    exact ⟨stepHeld kept.1 taken,stepMade kept.1 kept.2 taken⟩
  · intro g graph n ref there
    simp [Namespace.initial] at there

end Worlds

section Chain
variable {w : World} {r : Registry} {event : String} {chain : List String} {g o ref : Nat} {graph other : NodeGraph}
  {n : String} {h : Handler}

theorem awaitsPlain {ns : String} (valid : validateNamespace ns = .ok ()) (n : String) :
    Glob.Plain (awaits ns n).toList := by
  unfold awaits
  split
  · exact dispatchPlain valid
  · exact interruptedPlain valid

theorem ownAccepts {ns : String} (own : Own ns n h) (event : String) :
    accepts Glob.fnmatchcase h event = true ↔ event = awaits ns n := by
  rw [accepts,own.subscribe,own.filters,textsOf,textsOf,List.any_cons,List.any_nil,Bool.or_false,
    Bool.not_false,Bool.and_true]
  exact Glob.plainMatches (awaitsPlain own.valid n)

/- The patterns for all graphs: whatever begins like such a name. -/
theorem everyGraph (event : String) :
    (Glob.fnmatchcase event (getGraphDispatchName "*") = true ↔ (graphDispatch ++ "_").toList <+: event.toList) ∧
    (Glob.fnmatchcase event (getGraphInterruptedName "*") = true ↔ (graphInterrupted ++ "_").toList <+: event.toList) :=
  ⟨Glob.stemMatches (show Glob.Plain (graphDispatch ++ "_").toList by decide),
    Glob.stemMatches (show Glob.Plain (graphInterrupted ++ "_").toList by decide)⟩

def Listens (r : Registry) (n pattern : String) : Prop :=
  ∃ ref h, r.registry.get n = some ref ∧ r.heap[ref]? = some h ∧
    h.subscribe = ofStrings [pattern] ∧ h.filterEvent = ofStrings []

theorem listensSelects {pattern : String} (listens : Listens r n pattern) (event : String) :
    selects Glob.fnmatchcase r event n = Glob.fnmatchcase event pattern := by
  obtain ⟨ref,h,found,inside,subscribed,unfiltered⟩ := listens
  rw [selectsOf found inside,accepts,subscribed,unfiltered,textsOf,textsOf,List.any_cons,List.any_nil,Bool.or_false,
    Bool.not_false,Bool.and_true]

theorem ownSelected (held : Held Glob.fnmatchcase none w) (made : Made w) (there : w.graphs[g]? = some graph)
    (known : graph.handlers.get n ≠ none) (event : String) :
    selects Glob.fnmatchcase w.registry event n = true ↔ event = awaits graph.nameSpace n := by
  obtain ⟨ref,mine⟩ := Option.ne_none_iff_exists'.mp known
  obtain ⟨h,inside,own⟩ := made g graph n ref there mine
  rw [selectsOf (held.owned g graph n ref there mine) inside]
  exact ownAccepts own event

/- The bucket of a graph's handler: all hooks are far above the fallback. -/
theorem ownBucket (held : Held Glob.fnmatchcase none w) (made : Made w) (there : w.graphs[g]? = some graph)
    (known : graph.handlers.get n ≠ none) : n ∈ Buckets.bucket w.registry.priorityBuckets
      (if n = fallbackName graph.nameSpace then -10000 else 1) := by
  obtain ⟨ref,mine⟩ := Option.ne_none_iff_exists'.mp known
  obtain ⟨h,inside,own⟩ := made g graph n ref there mine
  obtain ⟨h',inside',entry⟩ := held.coherent.known n ref (held.owned g graph n ref there mine)
  cases Option.some.inj (inside.symm.trans inside')
  have placed := entry.placed
  rw [own.priority] at placed
  split at placed <;> obtain ⟨k,key,bucket⟩ := placed <;> cases Option.some.inj key <;> rename_i place
  · rw [if_pos place]
    exact bucket
  · rw [if_neg place]
    exact bucket

/- Which handlers of graphs an event is dispatched to, and in which order. -/
structure Routed (w : World) (event : String) (chain : List String) : Prop where
  own : ∀ (g : Nat) (graph : NodeGraph) (n : String), w.graphs[g]? = some graph →
    graph.handlers.get n ≠ none → (n ∈ chain ↔ event = awaits graph.nameSpace n)
  dispatched : ∀ (g o : Nat) (graph other : NodeGraph) (n : String), w.graphs[g]? = some graph →
    w.graphs[o]? = some other → graph.decomposed = false → graph.handlers.get n ≠ none → n ∈ chain →
    other.decomposed = false → event = getGraphDispatchName other.nameSpace →
    g = o ∧ n = getGraphDispatchName graph.nameSpace
  interrupted : ∀ (g o : Nat) (graph other : NodeGraph) (n : String), w.graphs[g]? = some graph →
    w.graphs[o]? = some other → graph.decomposed = false → graph.handlers.get n ≠ none → n ∈ chain →
    other.decomposed = false → event = getGraphInterruptedName other.nameSpace →
    g = o ∧ n ≠ getGraphDispatchName graph.nameSpace
  last : ∀ (g : Nat) (graph : NodeGraph) (n : String), w.graphs[g]? = some graph →
    graph.decomposed = false → graph.handlers.get n ≠ none → n ∈ chain →
    event = getGraphInterruptedName graph.nameSpace → n ≠ fallbackName graph.nameSpace →
    Precedence.Before chain n (fallbackName graph.nameSpace)
  every : ∀ n : String,
    (Listens w.registry n (getGraphDispatchName "*") → (n ∈ chain ↔ (graphDispatch ++ "_").toList <+: event.toList)) ∧
    (Listens w.registry n (getGraphInterruptedName "*") → (n ∈ chain ↔ (graphInterrupted ++ "_").toList <+: event.toList))

/- Live graphs of one name are one graph. -/
theorem sameGraph (held : Held Glob.fnmatchcase none w) (made : Made w) (there : w.graphs[g]? = some graph)
    (there' : w.graphs[o]? = some other) (live : graph.decomposed = false) (live' : other.decomposed = false)
    (same : orGlobal graph.nameSpace = orGlobal other.nameSpace) : g = o := by
  have named : ∀ (i : Nat) (x : NodeGraph), w.graphs[i]? = some x → x.decomposed = false →
      orGlobal x.nameSpace = x.nameSpace := by
    intro i x here alive
    obtain ⟨ref,mine⟩ := Option.ne_none_iff_exists'.mp (held.both i x here alive).1
    obtain ⟨h,_,own⟩ := made i x _ ref here mine
    exact if_neg own.named
  rw [named g graph there live,named o other there' live'] at same
  have first := (held.mapped graph.nameSpace g).mpr ⟨graph,there,rfl,.inl live⟩
  have second := (held.mapped graph.nameSpace o).mpr ⟨other,there',same.symm,.inl live'⟩
  exact Option.some.inj (first.symm.trans second)

theorem routed {acts : List Namespace.Action}
    (ran : Machine.run (Namespace.step Glob.fnmatchcase) Namespace.initial acts = some w)
    (found : getHandlersChainForEvent Glob.fnmatchcase w.registry event = .ok (chain,r)) :
    Routed w event chain := by
  obtain ⟨held,made⟩ := runMade ran
  have fresh_ : chain = fresh Glob.fnmatchcase w.registry event := by
    rcases chainCases held.coherent event with ⟨_,error,raised⟩ | ⟨_,t,done,_⟩
    · cases raised.symm.trans found
    · cases found.symm.trans done
      rfl
  have own : ∀ (g : Nat) (graph : NodeGraph) (n : String), w.graphs[g]? = some graph →
      graph.handlers.get n ≠ none → (n ∈ chain ↔ event = awaits graph.nameSpace n) := by
    intro g graph n there known
    obtain ⟨ref,mine⟩ := Option.ne_none_iff_exists'.mp known
    have active := (held.coherent.names n).mpr (Dict.keyOf (held.owned g graph n ref there mine))
    rw [fresh_,fresh,List.mem_filter,ownSelected held made there known]
    exact ⟨fun both => both.2,fun same => ⟨active,same⟩⟩
  have heard : ∀ {n pattern : String}, Listens w.registry n pattern →
      (n ∈ chain ↔ Glob.fnmatchcase event pattern = true) := by
    intro n pattern listens
    have selected := listensSelects listens event
    obtain ⟨ref,h,known,inside,_⟩ := listens
    rw [fresh_,fresh,List.mem_filter,selected]
    exact ⟨fun both => both.2,fun same => ⟨(held.coherent.names n).mpr (Dict.keyOf known),same⟩⟩
  refine ⟨own,?_,?_,?_,?_⟩
  · intro g o graph other n there there' live known member live' same
    have waits := (own g graph n there known).mp member
    rw [same] at waits
    unfold awaits at waits
    split at waits
    · rename_i dispatch
      exact ⟨sameGraph held made there there' live live' (dispatchApart waits.symm),dispatch⟩
    · exact absurd waits dispatchNotInterrupted
  · intro g o graph other n there there' live known member live' same
    have waits := (own g graph n there known).mp member
    rw [same] at waits
    unfold awaits at waits
    split at waits
    · exact absurd waits.symm dispatchNotInterrupted
    · rename_i away
      exact ⟨sameGraph held made there there' live live' (interruptedApart waits.symm),away⟩
  · intro g graph n there live known member same other
    have fallback := (held.both g graph there live).2
    have waits := (own g graph n there known).mp member
    have behind : event = awaits graph.nameSpace (fallbackName graph.nameSpace) := by
      rw [awaits,if_neg (Ne.symm dispatchNotFallback)]
      exact same
    have high := ownBucket held made there known
    have low := ownBucket held made there fallback
    rw [if_neg other] at high
    rw [if_pos rfl] at low
    rw [fresh_]
    exact (Precedence.beforeFilter ((ownSelected held made there known event).mpr waits)
      ((ownSelected held made there fallback event).mpr behind)).mpr
        (Precedence.greaterBefore high low (by decide))
  · intro n
    exact ⟨fun listens => (heard listens).trans (everyGraph event).1,
      fun listens => (heard listens).trans (everyGraph event).2⟩

/- Two graphs, the first with a hook of its own, and a user's handler for all graphs. -/
def neighbours : List Namespace.Action :=
  [.construct (.ok ()) (some "a") 1 false,.construct (.ok ()) (some "ab") 2 false,
    .user (.subscribe (once (getGraphDispatchName "*")) (.function "audit" (.function 9))),
    .addInterruptedHook 0 (some "hook"),.decompose 1 false,.construct (.ok ()) none 3 false]

theorem routedNeighbours : ∃ w chain chain' r r',
    Machine.run (Namespace.step Glob.fnmatchcase) Namespace.initial neighbours = some w ∧
    getHandlersChainForEvent Glob.fnmatchcase w.registry (getGraphInterruptedName "a") = .ok (chain,r) ∧
    chain = ["hook",fallbackName "a"] ∧ Routed w (getGraphInterruptedName "a") chain ∧
    getHandlersChainForEvent Glob.fnmatchcase w.registry (getGraphDispatchName "a") = .ok (chain',r') ∧
    "audit" ∈ chain' := by
  have ran : ∃ w chain chain' r r',
      Machine.run (Namespace.step Glob.fnmatchcase) Namespace.initial neighbours = some w ∧
      getHandlersChainForEvent Glob.fnmatchcase w.registry (getGraphInterruptedName "a") = .ok (chain,r) ∧
      chain = ["hook",fallbackName "a"] ∧
      getHandlersChainForEvent Glob.fnmatchcase w.registry (getGraphDispatchName "a") = .ok (chain',r') ∧
      Listens w.registry "audit" (getGraphDispatchName "*") :=
    ⟨_,_,_,_,_,rfl,rfl,by decide,rfl,_,_,rfl,rfl,rfl,rfl⟩
  obtain ⟨w,chain,chain',r,r',ran,found,same,dispatched,listens⟩ := ran
  have heard := ((routed ran dispatched).every "audit").1 listens
  exact ⟨w,chain,chain',r,r',ran,found,same,routed ran found,dispatched,heard.mpr (by decide)⟩

end Chain

end Apixis.Routing
