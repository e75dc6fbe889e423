import Apixis.Graph.Namespace

/-! A graph that is being built and one that is being retired look alike: they hold
the entry of their namespace and some handlers, and are not live. Every operation
passes through such a state, so the invariant allows for one such graph. -/
namespace Apixis.NamespaceOwnership
open HandlerRegistry PyError ChainCache Confinement Namespace

/- Who is live, who is mapped and who is registered; `half` is neither live nor gone. -/
structure Held (fnmatchcase : String → String → Bool) (half : Option Nat) (w : World) : Prop where
  coherent : Coherent fnmatchcase w.registry
  mapped : ∀ nameSpace g, w.namespaceGraphs.get nameSpace = some g ↔
    ∃ graph, w.graphs[g]? = some graph ∧ graph.nameSpace = nameSpace ∧
      (graph.decomposed = false ∨ half = some g)
  owned : ∀ (g : Nat) (graph : NodeGraph) (n : String) (ref : Nat), w.graphs[g]? = some graph →
    graph.handlers.get n = some ref → w.registry.registry.get n = some ref
  apart : ∀ (g g' : Nat) (graph graph' : NodeGraph) (n : String), w.graphs[g]? = some graph →
    w.graphs[g']? = some graph' → graph.handlers.get n ≠ none → graph'.handlers.get n ≠ none → g = g'
  retired : ∀ (g : Nat) (graph : NodeGraph), w.graphs[g]? = some graph → graph.decomposed = true →
    half ≠ some g → graph.handlers = .empty
  both : ∀ (g : Nat) (graph : NodeGraph), w.graphs[g]? = some graph → graph.decomposed = false →
    graph.handlers.get (getGraphDispatchName graph.nameSpace) ≠ none ∧
    graph.handlers.get (fallbackName graph.nameSpace) ≠ none
  halfway : ∀ g, half = some g → ∃ graph, w.graphs[g]? = some graph ∧ graph.decomposed = true

variable {fnmatchcase : String → String → Bool} {half : Option Nat} {w u v : World} {g o ref : Nat}
  {graph owner : NodeGraph} {r s : Registry} {n name : String}

theorem initialHeld : Held fnmatchcase none Namespace.initial := by
  refine ⟨initialCoherent,?_,?_,?_,?_,?_,?_⟩
  · intro nameSpace g
    simp [Namespace.initial,Dict.getEmpty]
  · intro g graph n ref found
    simp [Namespace.initial] at found
  · intro g g' graph graph' n found
    simp [Namespace.initial] at found
  · intro g graph found
    simp [Namespace.initial] at found
  · intro g graph found
    simp [Namespace.initial] at found
  · intro g same
    cases same

theorem unregisterAllRemoves (coherent : Coherent fnmatchcase r) (l : List (String × Nat))
    (distinct : (l.map Prod.fst).Nodup) (own : ∀ e ∈ l, r.registry.get e.1 = some e.2) :
    ∃ s, unregisterAll fnmatchcase r l = .ok s ∧ Coherent fnmatchcase s ∧
      ∀ m, s.registry.get m = if m ∈ l.map Prod.fst then none else r.registry.get m := by
  induction l generalizing r with
  | nil => exact ⟨r,rfl,coherent,fun m => rfl⟩
  | cons e rest ih =>
    obtain ⟨n,ref⟩ := e
    rw [List.map_cons,List.nodup_cons] at distinct
    have found : r.registry.get n = some ref := own (n,ref) List.mem_cons_self
    obtain ⟨s,taken,without⟩ := unregisterRemoves coherent found true
    have later : ∀ e ∈ rest, s.registry.get e.1 = some e.2 := by
      intro e member
      have other : e.1 ≠ n := by
        intro same
        exact distinct.1 (List.mem_map.mpr ⟨e,member,same⟩)
      rw [without.registry,if_neg other]
      exact own e (List.mem_cons_of_mem _ member)
    obtain ⟨t,removed,kept,gone⟩ := ih without.coherent distinct.2 later
    refine ⟨t,?_,kept,?_⟩
    · simp only [unregisterAll,found,if_true,taken,leavingReturned,bind,Except.bind]
      exact removed
    · intro m
      rw [gone,without.registry]
      by_cases same : m = n
      · simp [same]
      · simp only [List.map_cons,List.mem_cons,same,false_or,if_false]

def Lives (half : Option Nat) (g : Nat) (graph : NodeGraph) : Prop :=
  graph.decomposed = false ∨ half = some g

/- One graph changes, and with it at most its own entry and its own names. -/
structure Changed (half half' : Option Nat) (w u : World) (g : Nat) (graph next : NodeGraph) : Prop where
  graphs : u.graphs = w.graphs.set g next
  nameSpace : next.nameSpace = graph.nameSpace
  lives : Lives half' g next → Lives half g graph
  mapped : (∀ nameSpace, u.namespaceGraphs.get nameSpace = w.namespaceGraphs.get nameSpace) ∧
      (Lives half g graph → Lives half' g next) ∨
    (∀ nameSpace, u.namespaceGraphs.get nameSpace =
      if nameSpace = graph.nameSpace then none else w.namespaceGraphs.get nameSpace) ∧
      Lives half g graph ∧ ¬ Lives half' g next
  half : ∀ o, o ≠ g → (half' = some o ↔ half = some o)
  own : ∀ n ref, next.handlers.get n = some ref → u.registry.registry.get n = some ref
  others : ∀ n ref, w.registry.registry.get n = some ref → graph.handlers.get n = none →
    u.registry.registry.get n = some ref
  fresh : ∀ n, next.handlers.get n ≠ none → graph.handlers.get n ≠ none ∨ w.registry.registry.get n = none
  retired : next.decomposed = true → half' ≠ some g → next.handlers = .empty
  both : next.decomposed = false → next.handlers.get (getGraphDispatchName next.nameSpace) ≠ none ∧
    next.handlers.get (fallbackName next.nameSpace) ≠ none
  halfway : half' = some g → next.decomposed = true

theorem changedMap {half half' : Option Nat} {next : NodeGraph} (held : Held fnmatchcase half w)
    (there : w.graphs[g]? = some graph) (changed : Changed half half' w u g graph next)
    (nameSpace : String) (o : Nat) : u.namespaceGraphs.get nameSpace = some o ↔
      w.namespaceGraphs.get nameSpace = some o ∧ (o = g → Lives half' g next) := by
  have lives : w.namespaceGraphs.get nameSpace = some g → graph.nameSpace = nameSpace ∧ Lives half g graph := by
    intro found
    obtain ⟨x,found',named,lives⟩ := (held.mapped nameSpace g).mp found
    cases Option.some.inj (there.symm.trans found')
    exact ⟨named,lives⟩
  rcases changed.mapped with ⟨same,stays⟩ | ⟨erased,lived,gone⟩
  · rw [same]
    constructor
    · intro found
      refine ⟨found,?_⟩
      rintro rfl
      exact stays (lives found).2
    · exact fun both => both.1
  · rw [erased]
    have mine : w.namespaceGraphs.get graph.nameSpace = some g :=
      (held.mapped graph.nameSpace g).mpr ⟨graph,there,rfl,lived⟩
    constructor
    · intro found
      split at found
      · cases found
      · rename_i other
        refine ⟨found,?_⟩
        rintro rfl
        exact absurd (lives found).1.symm other
    · rintro ⟨found,away⟩
      rw [if_neg]
      · exact found
      · rintro rfl
        exact gone (away (Option.some.inj (found.symm.trans mine)))

theorem changedHeld {half half' : Option Nat} (next : NodeGraph) (held : Held fnmatchcase half w)
    (there : w.graphs[g]? = some graph) (coherent : Coherent fnmatchcase u.registry)
    (changed : Changed half half' w u g graph next) : Held fnmatchcase half' u := by
  have here : u.graphs[g]? = some next := by rw [changed.graphs]; exact Slots.setSame there
  have other : ∀ {o}, o ≠ g → u.graphs[o]? = w.graphs[o]? := by
    intro o different
    rw [changed.graphs]
    exact Slots.setOther (Ne.symm different)
  -- names of the others are no names of this graph
  have foreign : ∀ {o x n}, o ≠ g → w.graphs[o]? = some x → x.handlers.get n ≠ none →
      graph.handlers.get n = none := by
    intro o x n different found known
    by_contra mine
    exact different (held.apart o g x graph n found there known mine)
  have free : ∀ {o x n}, o ≠ g → w.graphs[o]? = some x → x.handlers.get n ≠ none →
      next.handlers.get n = none := by
    intro o x n different found known
    by_contra mine
    rcases changed.fresh n mine with old | unknown
    · exact old (foreign different found known)
    · obtain ⟨ref,at_⟩ := Option.ne_none_iff_exists'.mp known
      cases unknown.symm.trans (held.owned o x n ref found at_)
  refine ⟨coherent,?_,?_,?_,?_,?_,?_⟩
  · intro nameSpace o
    rw [changedMap held there changed,held.mapped]
    by_cases same : o = g
    · subst same
      constructor
      · rintro ⟨⟨x,found,named,_⟩,lives⟩
        cases Option.some.inj (there.symm.trans found)
        exact ⟨next,here,changed.nameSpace.trans named,lives rfl⟩
      · rintro ⟨x,found,named,lives⟩
        cases Option.some.inj (here.symm.trans found)
        exact ⟨⟨graph,there,changed.nameSpace.symm.trans named,changed.lives lives⟩,fun _ => lives⟩
    · rw [other same]
      simp only [changed.half o same,same,false_implies,and_true]
  · intro o x n ref found known
    by_cases same : o = g
    · subst same
      cases Option.some.inj (here.symm.trans found)
      exact changed.own n ref known
    · rw [other same] at found
      have some_ : x.handlers.get n ≠ none := by rw [known]; simp
      exact changed.others n ref (held.owned o x n ref found known) (foreign same found some_)
  · intro o o' x x' n found found' known known'
    by_cases same : o = g
    · subst same
      by_cases same' : o' = o
      · exact same'.symm
      · rw [other same'] at found'
        cases Option.some.inj (here.symm.trans found)
        exact absurd (free same' found' known') known
    · rw [other same] at found
      by_cases same' : o' = g
      · subst same'
        cases Option.some.inj (here.symm.trans found')
        exact absurd (free same found known) known'
      · rw [other same'] at found'
        exact held.apart o o' x x' n found found' known known'
  · intro o x found gone away
    by_cases same : o = g
    · subst same
      cases Option.some.inj (here.symm.trans found)
      exact changed.retired gone away
    · rw [other same] at found
      exact held.retired o x found gone (fun at_ => away ((changed.half o same).mpr at_))
  · intro o x found live
    by_cases same : o = g
    · subst same
      cases Option.some.inj (here.symm.trans found)
      exact changed.both live
    · rw [other same] at found
      exact held.both o x found live
  · intro o at_
    by_cases same : o = g
    · subst same
      exact ⟨next,here,changed.halfway at_⟩
    · rw [other same]
      exact held.halfway o ((changed.half o same).mp at_)

/- What is left of a graph that has been torn down. -/
structure TornDown (w u : World) (g : Nat) (graph : NodeGraph) : Prop where
  graphs : u.graphs = w.graphs.set g {graph with handlers := .empty}
  registry : ∀ m, u.registry.registry.get m =
    if graph.handlers.get m = none then w.registry.registry.get m else none
  mapped : ∀ nameSpace, u.namespaceGraphs.get nameSpace =
    if nameSpace = graph.nameSpace then none else w.namespaceGraphs.get nameSpace

theorem tornDown (held : Held fnmatchcase (some g) w) (there : w.graphs[g]? = some graph) :
    ∃ v, unregisterHandlers fnmatchcase w g = .ok v ∧ TornDown w (releaseEntry v g) g graph ∧
      Held fnmatchcase none (releaseEntry v g) := by
  obtain ⟨half_,there',gone⟩ := held.halfway g rfl
  cases Option.some.inj (there.symm.trans there')
  have own : ∀ e ∈ graph.handlers.entries, w.registry.registry.get e.1 = some e.2 :=
    fun e member => held.owned g graph e.1 e.2 there (Dict.memEntry.mpr member)
  obtain ⟨s,removed,coherent,registry⟩ :=
    unregisterAllRemoves held.coherent graph.handlers.entries graph.handlers.distinct own
  have mine : w.namespaceGraphs.get graph.nameSpace = some g :=
    (held.mapped graph.nameSpace g).mpr ⟨graph,there,rfl,.inr rfl⟩
  have here := Slots.setSame (y := {graph with handlers := Dict.empty}) there
  let bare : World := {w with
    registry := s
    graphs := w.graphs.set g {graph with handlers := .empty}}
  have released : releaseEntry bare g =
      {bare with namespaceGraphs := w.namespaceGraphs.erase graph.nameSpace} := by
    simp only [releaseEntry,bare,here,mine,if_true]
  have torn : TornDown w (releaseEntry bare g) g graph := by
    rw [released]
    refine ⟨rfl,?_,fun nameSpace => Dict.getErase _ _ _⟩
    intro m
    have gone : s.registry.get m =
        if m ∈ graph.handlers.keys then none else w.registry.registry.get m := registry m
    by_cases known : graph.handlers.get m = none
    · rw [if_neg (Dict.getNone.mp known)] at gone
      rw [if_pos known]
      exact gone
    · have member : m ∈ graph.handlers.keys := by
        by_contra missing
        exact known (Dict.getNone.mpr missing)
      rw [if_pos member] at gone
      rw [if_neg known]
      exact gone
  refine ⟨bare,?_,torn,?_⟩
  · simp only [unregisterHandlers,there,removed,World.calling,bind,Except.bind]
    rfl
  · have kept : Coherent fnmatchcase (releaseEntry bare g).registry := by
      rw [released]
      exact coherent
    refine changedHeld {graph with handlers := .empty} held there kept
      ⟨torn.graphs,rfl,fun _ => .inr rfl,.inr ⟨torn.mapped,.inr rfl,?_⟩,?_,?_,?_,?_,fun _ _ => rfl,?_,?_⟩
    · rintro (live | half)
      · cases gone.symm.trans live
      · cases half
    · intro o different
      simp [different.symm]
    · intro n ref found
      cases found
    · intro n ref found unknown
      rw [torn.registry,if_pos unknown]
      exact found
    · intro n known
      exact absurd rfl known
    · intro live
      cases gone.symm.trans live
    · intro half
      cases half

/- What `decompose` makes of a live graph. -/
structure Retired (w u : World) (g : Nat) (graph : NodeGraph) : Prop where
  graphs : u.graphs = w.graphs.set g
    {graph with decomposed := true, contexts := 0, handlers := .empty}
  registry : ∀ m, u.registry.registry.get m =
    if graph.handlers.get m = none then w.registry.registry.get m else none
  mapped : ∀ nameSpace, u.namespaceGraphs.get nameSpace =
    if nameSpace = graph.nameSpace then none else w.namespaceGraphs.get nameSpace

theorem retiringHeld (held : Held fnmatchcase none w) (there : w.graphs[g]? = some graph)
    (live : graph.decomposed = false) :
    Held fnmatchcase (some g) (w.update g {graph with decomposed := true, contexts := 0}) := by
  refine changedHeld {graph with decomposed := true, contexts := 0} held there held.coherent
    ⟨rfl,rfl,fun _ => .inl live,.inl ⟨fun _ => rfl,fun _ => .inr rfl⟩,?_,?_,fun _ _ found _ => found,
      fun _ known => .inl known,?_,?_,fun _ => rfl⟩
  · intro o different
    simp [different.symm]
  · intro n ref found
    exact held.owned g graph n ref there found
  · intro _ away
    exact absurd rfl away
  · intro impossible
    cases impossible

theorem decomposeRetires (held : Held fnmatchcase none w) (there : w.graphs[g]? = some graph)
    (live : graph.decomposed = false) {force : Bool} (free : (graph.contexts != 0 && !force) = false) :
    ∃ u, decompose fnmatchcase w g force = .ok u ∧ Retired w u g graph ∧ Held fnmatchcase none u := by
  have retiring := retiringHeld held there live
  have here : (w.update g {graph with decomposed := true, contexts := 0}).graphs[g]? =
      some {graph with decomposed := true, contexts := 0} := Slots.setSame there
  obtain ⟨v,bare,torn,held'⟩ := tornDown retiring here
  refine ⟨releaseEntry v g,?_,⟨?_,torn.registry,torn.mapped⟩,held'⟩
  · simp only [decompose,there,live,free,raiseIf,leavingReturned,bind,Except.bind,Bool.false_eq_true,
      if_false,bare]
    rfl
  · rw [torn.graphs,World.update,List.set_set]

theorem decomposedAgain (there : w.graphs[g]? = some graph) (gone : graph.decomposed = true)
    (force : Bool) : decompose fnmatchcase w g force = .ok w := by
  simp only [decompose,there,gone,if_true]

theorem decomposeHeld (held : Held fnmatchcase none w) (g : Nat) (force : Bool) :
    Held fnmatchcase none (stateOf (decompose fnmatchcase w g force)) := by
  cases there : w.graphs[g]? with
  | none =>
    simp only [decompose,there]
    exact held
  | some graph =>
    cases live : graph.decomposed with
    | true =>
      rw [decomposedAgain there live]
      exact held
    | false =>
      cases busy : (graph.contexts != 0 && !force) with
      | true =>
        simp only [decompose,there,live,busy,raiseIf,leavingRaised,bind,Except.bind,Bool.false_eq_true,
          if_false,if_true]
        exact held
      | false =>
        obtain ⟨u,done,_,held'⟩ := decomposeRetires held there live busy
        rw [done]
        exact held'

theorem keptHeld (held : Held fnmatchcase half w) (there : w.graphs[g]? = some graph)
    (lives : Lives half g graph) (coherent : Coherent fnmatchcase r)
    (confined : Confined w.registry r (some name)) (free : w.registry.registry.get name = none)
    (taken : r.registry.get name = some ref) : Held fnmatchcase half (w.keep g graph r name ref) := by
  have kept : ∀ n ref', w.registry.registry.get n = some ref' → r.registry.get n = some ref' := by
    intro n ref' found
    rw [confined.registry n]
    · exact found
    · intro same
      cases Option.some.inj same
      cases free.symm.trans found
  have more : ∀ n, graph.handlers.get n ≠ none → (graph.handlers.set name ref).get n ≠ none := by
    intro n known
    rw [Dict.getSet]
    split
    · simp
    · exact known
  refine changedHeld {graph with handlers := graph.handlers.set name ref} held there coherent
    ⟨rfl,rfl,fun _ => lives,.inl ⟨fun _ => rfl,fun _ => lives⟩,fun _ _ => Iff.rfl,?_,
      fun n ref found _ => kept n ref found,?_,?_,?_,?_⟩
  · intro n ref' found
    simp only [Dict.getSet] at found
    split at found
    · rename_i same
      cases Option.some.inj found
      rw [same]
      exact taken
    · exact kept n ref' (held.owned g graph n ref' there found)
  · intro n known
    simp only [Dict.getSet] at known
    split at known
    · rename_i same
      rw [same]
      exact .inr free
    · exact .inl known
  · intro gone away
    rcases lives with live | half_
    · cases gone.symm.trans live
    · exact absurd half_ away
  · intro live
    obtain ⟨dispatch,fallback⟩ := held.both g graph there live
    exact ⟨more _ dispatch,more _ fallback⟩
  · intro half_
    obtain ⟨x,found,gone⟩ := held.halfway g half_
    cases Option.some.inj (there.symm.trans found)
    exact gone

theorem registryHeld (held : Held fnmatchcase half w) (coherent : Coherent fnmatchcase r)
    (kept : ∀ (g : Nat) (graph : NodeGraph) (n : String) (ref : Nat), w.graphs[g]? = some graph →
      graph.handlers.get n = some ref → r.registry.get n = some ref) :
    Held fnmatchcase half {w with registry := r} :=
  ⟨coherent,held.mapped,kept,held.apart,held.retired,held.both,held.halfway⟩

/- A graph under construction: not live, and nothing of it is shared yet. -/
structure Blank (w : World) (g : Nat) (graph : NodeGraph) : Prop where
  there : w.graphs[g]? = some graph
  gone : graph.decomposed = true
  bare : graph.handlers = .empty
  idle : graph.contexts = 0

theorem createdBlank (w : World) (nameSpace : String) :
    Blank (w.creating nameSpace) w.graphs.length ⟨nameSpace,.empty,0,true⟩ :=
  ⟨Slots.appendNew,rfl,rfl,rfl⟩

theorem createdHeld (held : Held fnmatchcase none w) (nameSpace : String) :
    Held fnmatchcase none (w.creating nameSpace) := by
  have cases_ : ∀ {g : Nat} {graph : NodeGraph}, (w.creating nameSpace).graphs[g]? = some graph →
      w.graphs[g]? = some graph ∨ graph = ⟨nameSpace,.empty,0,true⟩ := by
    intro g graph found
    rcases Slots.appendCases found with ⟨_,new⟩ | old
    · exact .inr new
    · exact .inl old
  refine ⟨held.coherent,?_,?_,?_,?_,?_,fun g same => (by cases same)⟩
  · intro ns g
    refine (held.mapped ns g).trans ?_
    constructor
    · rintro ⟨graph,found,rest⟩
      exact ⟨graph,Slots.appendOld found,rest⟩
    · rintro ⟨graph,found,named,live | half_⟩
      · rcases cases_ found with old | rfl
        · exact ⟨graph,old,named,.inl live⟩
        · cases live
      · cases half_
  · intro g graph n ref found known
    rcases cases_ found with old | rfl
    · exact held.owned g graph n ref old known
    · cases known
  · intro g g' graph graph' n found found' known known'
    rcases cases_ found with old | rfl
    · rcases cases_ found' with old' | rfl
      · exact held.apart g g' graph graph' n old old' known known'
      · exact absurd rfl known'
    · exact absurd rfl known
  · intro g graph found gone away
    rcases cases_ found with old | rfl
    · exact held.retired g graph old gone away
    · rfl
  · intro g graph found live
    rcases cases_ found with old | rfl
    · exact held.both g graph old live
    · cases live

theorem claimedHeld (held : Held fnmatchcase none w) (blank : Blank w g graph)
    (vacant : w.namespaceGraphs.get graph.nameSpace = none) :
    Held fnmatchcase (some g) (w.claim graph.nameSpace g) := by
  refine ⟨held.coherent,?_,held.owned,held.apart,?_,held.both,?_⟩
  · intro nameSpace o
    simp only [World.claim,Dict.getSet]
    constructor
    · intro found
      split at found
      · rename_i same
        cases Option.some.inj found
        exact ⟨graph,blank.there,same.symm,.inr rfl⟩
      · obtain ⟨x,there,named,live | half_⟩ := (held.mapped nameSpace o).mp found
        · exact ⟨x,there,named,.inl live⟩
        · cases half_
    · rintro ⟨x,there,named,live | half_⟩
      · have found := (held.mapped nameSpace o).mpr ⟨x,there,named,.inl live⟩
        rw [if_neg]
        · exact found
        · rintro rfl
          cases vacant.symm.trans found
      · cases Option.some.inj half_
        cases Option.some.inj (blank.there.symm.trans there)
        rw [if_pos named.symm]
  · intro o x there gone _
    exact held.retired o x there gone (by simp)
  · intro o half_
    cases Option.some.inj half_
    exact ⟨graph,blank.there,blank.gone⟩

/- How a graph has come by its namespace: it was free, or its owner was retired. -/
inductive Acquired (w u : World) (g : Nat) (graph : NodeGraph) (existOk : Bool) : Prop where
  | free (vacant : w.namespaceGraphs.get graph.nameSpace = none)
      (claimed : u = w.claim graph.nameSpace g) : Acquired w u g graph existOk
  | taken {o : Nat} {owner : NodeGraph} {v : World} (allowed : existOk = true) (mapped : w.namespaceGraphs.get graph.nameSpace = some o)
      (there : w.graphs[o]? = some owner) (retired : Retired w v o owner)
      (claimed : u = v.claim graph.nameSpace g) : Acquired w u g graph existOk

theorem acquireCases (held : Held fnmatchcase none w) (blank : Blank w g graph) (existOk : Bool) :
    (∃ error, acquireNamespace fnmatchcase w g existOk = .error (error,w)) ∨
    ∃ u, acquireNamespace fnmatchcase w g existOk = .ok u ∧
      validateNamespace graph.nameSpace = .ok () ∧ Acquired w u g graph existOk ∧
      Held fnmatchcase (some g) u ∧ Blank u g graph := by
  unfold acquireNamespace
  simp only [blank.there]
  cases valid : validateNamespace graph.nameSpace with
  | error error => exact .inl ⟨error,rfl⟩
  | ok checked =>
    simp only [leavingReturned,bind,Except.bind]
    cases occupied : w.namespaceGraphs.get graph.nameSpace with
    | none =>
      exact .inr ⟨_,rfl,trivial,.free occupied rfl,claimedHeld held blank occupied,
        ⟨blank.there,blank.gone,blank.bare,blank.idle⟩⟩
    | some o =>
      obtain ⟨owner,there,named,live | half_⟩ := (held.mapped graph.nameSpace o).mp occupied
      · have apart : o ≠ g := by
          rintro rfl
          cases Option.some.inj (blank.there.symm.trans there)
          cases blank.gone.symm.trans live
        simp only [apart,if_false]
        cases existOk with
        | false => exact .inl ⟨_,rfl⟩
        | true =>
          have free : (owner.contexts != 0 && !true) = false := Bool.and_false _
          obtain ⟨v,done,retired,held'⟩ := decomposeRetires held there live free
          have vacant : v.namespaceGraphs.get graph.nameSpace = none := by
            rw [retired.mapped,if_pos named.symm]
          have same : releaseEntry v o = v := by
            have gone : v.graphs[o]? = some {owner with decomposed := true, contexts := 0, handlers := .empty} := by
              rw [retired.graphs]
              exact Slots.setSame there
            simp only [releaseEntry,gone,named,vacant]
            rfl
          have blank' : Blank v g graph := by
            refine ⟨?_,blank.gone,blank.bare,blank.idle⟩
            rw [retired.graphs,Slots.setOther apart]
            exact blank.there
          refine .inr ⟨v.claim graph.nameSpace g,?_,trivial,.taken rfl occupied there retired rfl,
            claimedHeld held' blank' vacant,⟨blank'.there,blank'.gone,blank'.bare,blank'.idle⟩⟩
          simp only [raiseIf,Bool.not_true,Bool.false_eq_true,if_false,releaseNamespace,if_true,done,
            leavingReturned,bind,Except.bind,pure,Except.pure,same]
      · cases half_

/- What the registrations of a constructor add: names that were free, and no more. -/
structure Grown (a b : World) (g : Nat) (graph next : NodeGraph) : Prop where
  graphs : b.graphs = a.graphs.set g next
  same : next = {graph with handlers := next.handlers}
  mapped : b.namespaceGraphs = a.namespaceGraphs
  kept : ∀ n, next.handlers.get n = none → b.registry.registry.get n = a.registry.registry.get n
  free : ∀ n, next.handlers.get n ≠ none → a.registry.registry.get n = none

def Adds (fnmatchcase : String → String → Bool) (w : World) (g : Nat) (graph : NodeGraph) (name : String) :
    Namespace.Outcome → Prop
  | .error (_,u) => Held fnmatchcase (some g) u ∧ u.graphs = w.graphs ∧
      u.namespaceGraphs = w.namespaceGraphs ∧ u.registry.registry = w.registry.registry
  | .ok u => ∃ r ref, u = w.keep g graph r name ref ∧ Held fnmatchcase (some g) u ∧
      w.registry.registry.get name = none ∧
      ∀ n, n ≠ name → r.registry.get n = w.registry.registry.get n

theorem confinedOthers (confined : Confined r s (some name)) :
    ∀ n, n ≠ name → s.registry.get n = r.registry.get n :=
  fun n other => confined.registry n (fun same => other (Option.some.inj same).symm)

theorem dispatchAdds (held : Held fnmatchcase (some g) w) (there : w.graphs[g]? = some graph) :
    Adds fnmatchcase w g graph (getGraphDispatchName graph.nameSpace)
      (registerDispatchHandler fnmatchcase w g) := by
  simp only [registerDispatchHandler,there]
  generalize getGraphDispatchName graph.nameSpace = name
  have grown := allocatedCoherent held.coherent (adapter name)
  have created : ({w.registry with heap := w.registry.heap ++ [adapter name]}).heap[w.registry.heap.length]? =
      some (adapter name) := Slots.appendNew
  rcases subscribeCases grown created (once name) with
    ⟨error,r,raised,same,_,coherent⟩ | ⟨r,done,taken,confined,coherent⟩
  · rw [raised]
    refine ⟨registryHeld held coherent ?_,rfl,rfl,same⟩
    intro o x n ref found known
    rw [same]
    exact held.owned o x n ref found known
  · have free := subscribedFree created rfl done
    have whole := confinedTrans (confinedGrown w.registry (adapter name) _) confined
    rw [done]
    exact ⟨r,_,rfl,keptHeld held there (.inr rfl) coherent whole free taken,free,confinedOthers whole⟩

theorem fallbackAdds (held : Held fnmatchcase (some g) w) (there : w.graphs[g]? = some graph) :
    Adds fnmatchcase w g graph (fallbackName graph.nameSpace)
      (registerInterruptedHandler fnmatchcase w g) := by
  simp only [registerInterruptedHandler,there]
  generalize fallbackName graph.nameSpace = name
  generalize entry_ : ({adapter name with
    subscribe := .items [.text (getGraphInterruptedName graph.nameSpace)]
    priority := trailing} : Handler) = entry
  have named : entry.name = name := by rw [← entry_]; rfl
  have grown := allocatedCoherent held.coherent entry
  have created : ({w.registry with heap := w.registry.heap ++ [entry]}).heap[w.registry.heap.length]? =
      some entry := Slots.appendNew
  rcases registerCases grown created false with ⟨error,raised⟩ | ⟨r,done,registered⟩
  · rw [raised]
    refine ⟨registryHeld held grown ?_,rfl,rfl,rfl⟩
    exact held.owned
  · have free := registeredFree created done
    have whole := confinedTrans (confinedGrown w.registry entry _) (registeredConfined created registered)
    obtain ⟨next,taken,_⟩ := registeredHandler registered created
    rw [named] at free whole taken
    rw [done]
    exact ⟨r,_,rfl,keptHeld held there (.inr rfl) registered.coherent whole free taken,free,
      confinedOthers whole⟩

theorem grownKeep {a : World} {next : NodeGraph} (grown : Grown a w g graph next)
    (free : w.registry.registry.get name = none)
    (others : ∀ n, n ≠ name → r.registry.get n = w.registry.registry.get n) :
    Grown a (w.keep g next r name ref) g graph {next with handlers := next.handlers.set name ref} := by
  refine ⟨?_,?_,grown.mapped,?_,?_⟩
  · simp only [World.keep,grown.graphs,List.set_set]
  · rw [grown.same]
  · intro n unknown
    simp only [Dict.getSet] at unknown
    split at unknown
    · cases unknown
    · rename_i other
      exact (others n other).trans (grown.kept n unknown)
  · intro n known
    simp only [Dict.getSet] at known
    split at known
    · rename_i same
      rw [same]
      by_cases mine : next.handlers.get name = none
      · exact (grown.kept name mine).symm.trans free
      · exact grown.free name mine
    · exact grown.free n known

theorem registrations (held : Held fnmatchcase (some g) w) (blank : Blank w g graph) :
    (∃ error b next, (registerDispatchHandler fnmatchcase w g >>=
        fun registered => registerInterruptedHandler fnmatchcase registered g) = .error (error,b) ∧
      Held fnmatchcase (some g) b ∧ Grown w b g graph next) ∨
    ∃ b next, (registerDispatchHandler fnmatchcase w g >>=
        fun registered => registerInterruptedHandler fnmatchcase registered g) = .ok b ∧
      Held fnmatchcase (some g) b ∧ b.graphs[g]? = some next ∧ next.nameSpace = graph.nameSpace ∧
      next.handlers.get (getGraphDispatchName graph.nameSpace) ≠ none ∧
      next.handlers.get (fallbackName graph.nameSpace) ≠ none := by
  have start : Grown w w g graph graph := by
    refine ⟨(Slots.setEqual blank.there).symm,rfl,rfl,fun _ _ => rfl,?_⟩
    intro n known
    rw [blank.bare] at known
    exact absurd rfl known
  have dispatch := dispatchAdds held blank.there
  cases first : registerDispatchHandler fnmatchcase w g with
  | error failure =>
    obtain ⟨error,b⟩ := failure
    rw [first] at dispatch
    obtain ⟨held',graphs,mapped,same⟩ := dispatch
    refine .inl ⟨error,b,graph,rfl,held',?_⟩
    exact ⟨graphs.trans start.graphs,rfl,mapped,fun n _ => by rw [same],start.free⟩
  | ok c =>
    rw [first] at dispatch
    obtain ⟨r,ref,rfl,held',free,others⟩ := dispatch
    have grown : Grown w (w.keep g graph r (getGraphDispatchName graph.nameSpace) ref) g graph
        {graph with handlers := graph.handlers.set (getGraphDispatchName graph.nameSpace) ref} :=
      grownKeep start free others
    have here : (w.keep g graph r (getGraphDispatchName graph.nameSpace) ref).graphs[g]? =
        some {graph with handlers := graph.handlers.set (getGraphDispatchName graph.nameSpace) ref} :=
      Slots.setSame blank.there
    have fallback := fallbackAdds held' here
    simp only [bind,Except.bind]
    cases second : registerInterruptedHandler fnmatchcase
        (w.keep g graph r (getGraphDispatchName graph.nameSpace) ref) g with
    | error failure =>
      obtain ⟨error,b⟩ := failure
      rw [second] at fallback
      obtain ⟨heldb,graphs,mapped,same⟩ := fallback
      exact .inl ⟨error,b,_,rfl,heldb,graphs.trans grown.graphs,grown.same,mapped.trans grown.mapped,
        fun n unknown => (by rw [same]; exact grown.kept n unknown),grown.free⟩
    | ok b =>
      rw [second] at fallback
      obtain ⟨s,ref',rfl,heldb,_,_⟩ := fallback
      refine .inr ⟨_,_,rfl,heldb,Slots.setSame here,rfl,?_,?_⟩
      · simp only [Dict.getSet]
        split <;> simp
      · rw [Dict.getSetSame]
        simp

theorem finishedHeld (held : Held fnmatchcase (some g) w) (there : w.graphs[g]? = some graph)
    (dispatch : graph.handlers.get (getGraphDispatchName graph.nameSpace) ≠ none)
    (fallback : graph.handlers.get (fallbackName graph.nameSpace) ≠ none) :
    Held fnmatchcase none (w.finish g) := by
  have finished : w.finish g = w.update g {graph with decomposed := false} := by
    simp only [World.finish,there]
  rw [finished]
  refine changedHeld {graph with decomposed := false} held there held.coherent
    ⟨rfl,rfl,fun _ => .inr rfl,.inl ⟨fun _ => rfl,fun _ => .inl rfl⟩,?_,
      fun n ref found => held.owned g graph n ref there found,fun _ _ found _ => found,
      fun _ known => .inl known,?_,fun _ => ⟨dispatch,fallback⟩,?_⟩
  · intro o different
    simp [different.symm]
  · intro gone
    cases gone
  · intro half_
    cases half_

/- The previous owner of the namespace has been retired for the new graph. -/
structure TakenOver (w u : World) (definition : Except PyError Unit) (nameSpace : String) (existOk : Bool)
    (o : Nat) (owner : NodeGraph) : Prop where
  defined : definition = .ok ()
  valid : validateNamespace nameSpace = .ok ()
  allowed : existOk = true
  mapped : w.namespaceGraphs.get nameSpace = some o
  retired : u.graphs[o]? = some {owner with decomposed := true, contexts := 0, handlers := .empty}

structure Untouched (w u : World) (o : Nat) (owner : NodeGraph) : Prop where
  graph : u.graphs[o]? = some owner
  mapped : ∀ nameSpace, w.namespaceGraphs.get nameSpace = some o →
    u.namespaceGraphs.get nameSpace = some o
  handlers : ∀ n ref, owner.handlers.get n = some ref → u.registry.registry.get n = some ref

structure Failed (w u : World) (definition : Except PyError Unit) (nameSpace : String) (existOk : Bool) :
    Prop where
  entry : ∀ n, u.namespaceGraphs.get n ≠ some w.graphs.length
  handlers : ∀ n ref, u.registry.registry.get n = some ref → w.registry.registry.get n = some ref
  owners : ∀ (o : Nat) (owner : NodeGraph), w.graphs[o]? = some owner →
    TakenOver w u definition nameSpace existOk o owner ∨ Untouched w u o owner

theorem mappedInside (held : Held fnmatchcase none w) {nameSpace : String}
    (found : w.namespaceGraphs.get nameSpace = some o) : o < w.graphs.length := by
  obtain ⟨x,there,_⟩ := (held.mapped nameSpace o).mp found
  exact Slots.inside there

theorem failedEarly (held : Held fnmatchcase none w) (definition : Except PyError Unit)
    (nameSpace : String) (existOk : Bool)
    (graphs : ∀ (o : Nat) (owner : NodeGraph), w.graphs[o]? = some owner → u.graphs[o]? = some owner)
    (mapped : ∀ n, u.namespaceGraphs.get n = w.namespaceGraphs.get n)
    (registry : ∀ n, u.registry.registry.get n = w.registry.registry.get n) :
    Failed w u definition nameSpace existOk := by
  refine ⟨?_,fun n ref found => (registry n).symm.trans found,?_⟩
  · intro n found
    rw [mapped] at found
    exact Nat.lt_irrefl _ (mappedInside held found)
  · intro o owner there
    refine .inr ⟨graphs o owner there,fun ns found => (mapped ns).trans found,?_⟩
    intro n ref known
    rw [registry]
    exact held.owned o owner n ref there known

theorem failedTaken (held : Held fnmatchcase none w) {nameSpace : String} {existOk : Bool} {o : Nat}
    {owner : NodeGraph} (valid : validateNamespace nameSpace = .ok ()) (allowed : existOk = true)
    (owned : w.namespaceGraphs.get nameSpace = some o) (there : w.graphs[o]? = some owner)
    (retired : u.graphs[o]? = some {owner with decomposed := true, contexts := 0, handlers := .empty})
    (others : ∀ (p : Nat) (x : NodeGraph), p ≠ o → w.graphs[p]? = some x → u.graphs[p]? = some x)
    (mapped : ∀ n, u.namespaceGraphs.get n = if n = nameSpace then none else w.namespaceGraphs.get n)
    (registry : ∀ n, u.registry.registry.get n =
      if owner.handlers.get n = none then w.registry.registry.get n else none) :
    Failed w u (.ok ()) nameSpace existOk := by
  refine ⟨?_,?_,?_⟩
  · intro n found
    rw [mapped] at found
    split at found
    · cases found
    · exact Nat.lt_irrefl _ (mappedInside held found)
  · intro n ref found
    rw [registry] at found
    split at found
    · exact found
    · cases found
  · intro p x here
    by_cases same : p = o
    · subst same
      cases Option.some.inj (there.symm.trans here)
      exact .inl ⟨rfl,valid,allowed,owned,retired⟩
    · refine .inr ⟨others p x same here,?_,?_⟩
      · intro n found
        rw [mapped,if_neg]
        · exact found
        · rintro rfl
          exact same (Option.some.inj (found.symm.trans owned))
      · intro n ref known
        have foreign : owner.handlers.get n = none := by
          by_contra mine
          exact same (held.apart p o x owner n here there (by rw [known]; simp) mine)
        rw [registry,if_pos foreign]
        exact held.owned p x n ref here known

theorem grownTorn {a b u : World} {next : NodeGraph} (grown : Grown a b g graph next)
    (blank : Blank a g graph) (torn : TornDown b u g next) :
    u.graphs = a.graphs ∧ (∀ n, u.registry.registry.get n = a.registry.registry.get n) ∧
    ∀ n, u.namespaceGraphs.get n = if n = graph.nameSpace then none else a.namespaceGraphs.get n := by
  have named : next.nameSpace = graph.nameSpace := by rw [grown.same]
  refine ⟨?_,?_,?_⟩
  · rw [torn.graphs,grown.graphs,List.set_set]
    refine Slots.setEqual (blank.there.trans ?_)
    rw [grown.same]
    obtain ⟨ns,handlers,contexts,decomposed⟩ := graph
    have bare : handlers = .empty := blank.bare
    rw [bare]
  · intro n
    rw [torn.registry]
    split
    · rename_i unknown
      exact grown.kept n unknown
    · rename_i known
      exact (grown.free n known).symm
  · intro n
    rw [torn.mapped,named,grown.mapped]

theorem failedLate (held : Held fnmatchcase none w) {nameSpace : String} {existOk : Bool} {a : World}
    (valid : validateNamespace nameSpace = .ok ())
    (acquired : Acquired (w.creating nameSpace) a w.graphs.length ⟨nameSpace,.empty,0,true⟩ existOk)
    (graphs : u.graphs = a.graphs)
    (registry : ∀ n, u.registry.registry.get n = a.registry.registry.get n)
    (mapped : ∀ n, u.namespaceGraphs.get n = if n = nameSpace then none else a.namespaceGraphs.get n) :
    Failed w u (.ok ()) nameSpace existOk := by
  have created : ∀ (o : Nat) (owner : NodeGraph), w.graphs[o]? = some owner →
      (w.creating nameSpace).graphs[o]? = some owner := fun o owner there => Slots.appendOld there
  cases acquired with
  | free vacant claimed =>
    refine failedEarly held _ _ _ ?_ ?_ ?_
    · intro o owner there
      rw [graphs,claimed]
      exact created o owner there
    · intro n
      rw [mapped,claimed]
      simp only [World.claim,Dict.getSet]
      split
      · rename_i same
        rw [same]
        exact vacant.symm
      · rfl
    · intro n
      rw [registry,claimed]
      rfl
  | @taken o owner v allowed owned there retired claimed =>
    have inside := mappedInside held owned
    have there' : w.graphs[o]? = some owner := by
      rcases Slots.appendCases there with ⟨last,_⟩ | old
      · exact absurd inside (by rw [last]; exact Nat.lt_irrefl _)
      · exact old
    have named : owner.nameSpace = nameSpace := by
      obtain ⟨x,found,named,_⟩ := (held.mapped nameSpace o).mp owned
      cases Option.some.inj (there'.symm.trans found)
      exact named
    refine failedTaken held valid allowed owned there' ?_ ?_ ?_ ?_
    · rw [graphs,claimed]
      simp only [World.claim,retired.graphs]
      exact Slots.setSame there
    · intro p x other here
      rw [graphs,claimed]
      simp only [World.claim,retired.graphs]
      rw [Slots.setOther (Ne.symm other)]
      exact created p x here
    · intro n
      rw [mapped,claimed]
      simp only [World.claim,Dict.getSet]
      split
      · rfl
      · rename_i other
        rw [retired.mapped,if_neg (fun same => other (same.trans named))]
        rfl
    · intro n
      rw [registry,claimed]
      exact retired.registry n

theorem constructCases (held : Held fnmatchcase none w) (definition : Except PyError Unit)
    (nameSpace : String) (existOk : Bool) :
    (∃ error u, construct fnmatchcase w definition nameSpace existOk = .error (error,u) ∧
      Held fnmatchcase none u ∧ Failed w u definition nameSpace existOk) ∨
    ∃ u, construct fnmatchcase w definition nameSpace existOk = .ok u ∧ Held fnmatchcase none u := by
  have same : ∀ n, w.registry.registry.get n = w.registry.registry.get n := fun _ => rfl
  unfold construct
  cases definition with
  | error error =>
    exact .inl ⟨error,w,rfl,held,failedEarly held _ _ _ (fun _ _ there => there) (fun _ => rfl) same⟩
  | ok defined =>
    simp only [leavingReturned,bind,Except.bind]
    have grown := createdHeld held nameSpace
    have blank := createdBlank w nameSpace
    rcases acquireCases grown blank existOk with ⟨error,raised⟩ | ⟨a,done,valid,acquired,helda,blanka⟩
    · rw [raised]
      exact .inl ⟨error,_,rfl,grown,failedEarly held _ _ _ (fun _ _ there => Slots.appendOld there)
        (fun _ => rfl) same⟩
    · rw [done]
      rcases registrations helda blanka with
        ⟨error,b,next,raised,heldb,added⟩ | ⟨b,next,registered,heldb,there,named,dispatch,fallback⟩
      · have here : b.graphs[w.graphs.length]? = some next := by
          rw [added.graphs]
          exact Slots.setSame blanka.there
        obtain ⟨v,bare,torn,heldu⟩ := tornDown heldb here
        obtain ⟨graphs,registry,mapped⟩ := grownTorn added blanka torn
        simp only [bind,Except.bind] at raised
        refine .inl ⟨error,releaseEntry v w.graphs.length,?_,heldu,
          failedLate held valid acquired graphs registry mapped⟩
        simp only [raised,bare]
        rfl
      · simp only [bind,Except.bind] at registered
        refine .inr ⟨b.finish w.graphs.length,?_,?_⟩
        · simp only [registered]
          rfl
        · rw [← named] at dispatch fallback
          exact finishedHeld heldb there dispatch fallback

theorem hookHeld (held : Held fnmatchcase none w) (g : Nat) (name : Option String) :
    Held fnmatchcase none (stateOf (addInterruptedHook fnmatchcase w g name)) := by
  unfold addInterruptedHook
  cases there : w.graphs[g]? with
  | none => exact held
  | some graph =>
    cases live : graph.decomposed with
    | true =>
      simp only [live,raiseIf,if_true,leavingRaised,bind,Except.bind]
      exact held
    | false =>
      simp only [live,raiseIf,Bool.false_eq_true,if_false,leavingReturned,bind,Except.bind]
      generalize getGraphInterruptedName graph.nameSpace = eventName
      generalize (if name.getD "" = "" then eventName else name.getD "") = handlerName
      have grown := allocatedCoherent held.coherent (adapter handlerName)
      have created : ({w.registry with
          heap := w.registry.heap ++ [adapter handlerName]}).heap[w.registry.heap.length]? =
          some (adapter handlerName) := Slots.appendNew
      rcases subscribeCases grown created (once eventName) with
        ⟨error,r,raised,same,_,coherent⟩ | ⟨r,done,taken,confined,coherent⟩
      · rw [raised]
        refine registryHeld held coherent ?_
        intro o x n ref found known
        rw [same]
        exact held.owned o x n ref found known
      · have free := subscribedFree created rfl done
        have whole := confinedTrans (confinedGrown w.registry (adapter handlerName) _) confined
        have taken' : r.registry.get handlerName = some w.registry.heap.length := taken
        rw [done]
        simp only [World.calling,taken']
        exact keptHeld held there (.inl live) coherent whole free taken'

theorem userHeld (held : Held fnmatchcase none w) {a : HandlerRegistry.Action}
    (allowed_ : allowed w (.user a) = true) :
    Held fnmatchcase none (stateOf (Namespace.perform fnmatchcase w (.user a))) := by
  refine registryHeld held (stepCoherent held.coherent (a := a) rfl) ?_
  intro g graph n ref there known
  have confined := performConfined held.coherent a
  rw [confined.registry n]
  · exact held.owned g graph n ref there known
  · intro named
    have owns : w.owns n = true := by
      refine List.any_eq_true.mpr ⟨graph,List.mem_of_getElem? there,?_⟩
      rw [known]
      rfl
    simp only [allowed,named,owns] at allowed_
    cases allowed_

theorem invokeHeld (held : Held fnmatchcase none w) (there : w.graphs[g]? = some graph)
    (live : graph.decomposed = false) (contexts : Nat) :
    Held fnmatchcase none (w.update g {graph with contexts := contexts}) := by
  refine changedHeld {graph with contexts := contexts} held there held.coherent
    ⟨rfl,rfl,fun lives => lives,.inl ⟨fun _ => rfl,fun lives => lives⟩,fun _ _ => Iff.rfl,
      fun n ref found => held.owned g graph n ref there found,fun _ _ found _ => found,
      fun _ known => .inl known,?_,fun _ => held.both g graph there live,?_⟩
  · intro gone
    cases gone.symm.trans live
  · intro half_
    cases half_

theorem stepHeld {a : Namespace.Action} (held : Held fnmatchcase none w)
    (taken : Namespace.step fnmatchcase w a = some u) : Held fnmatchcase none u := by
  unfold Namespace.step at taken
  split at taken <;> try contradiction
  rename_i permitted
  cases Option.some.inj taken
  cases a with
  | construct definition usingNamespace nextId existOk =>
    rcases constructCases held definition (chosen usingNamespace nextId) existOk with
      ⟨error,v,raised,held',_⟩ | ⟨v,done,held'⟩
    · simp only [Namespace.perform,raised]
      exact held'
    · simp only [Namespace.perform,done]
      exact held'
  | addInterruptedHook g name => exact hookHeld held g name
  | exit g => exact decomposeHeld held g true
  | decompose g force => exact decomposeHeld held g force
  | user a => exact userHeld held permitted
  | invoke g contexts =>
    simp only [Namespace.perform]
    cases there : w.graphs[g]? with
    | none => exact held
    | some graph =>
      cases live : graph.decomposed with
      | true =>
        simp only [live,if_true]
        exact held
      | false =>
        have moves := invokeHeld held there live contexts
        simp only [live] at moves ⊢
        exact moves

theorem runHeld {r : List Namespace.Action}
    (ran : Machine.run (Namespace.step fnmatchcase) Namespace.initial r = some w) :
    Held fnmatchcase none w :=
  Machine.invariant (fun _ _ _ => stepHeld) initialHeld ran

/- A live graph's own handler of the name, which no other graph holds. -/
def OwnHandler (w : World) (g : Nat) (graph : NodeGraph) (name : String) : Prop :=
  ∃ ref, graph.handlers.get name = some ref ∧ w.registry.registry.get name = some ref ∧
    ∀ (o : Nat) (other : NodeGraph) (n : String), w.graphs[o]? = some other →
      other.handlers.get n = some ref → o = g

theorem ownHandler (held : Held fnmatchcase none w) (there : w.graphs[g]? = some graph)
    (known : graph.handlers.get name ≠ none) : OwnHandler w g graph name := by
  obtain ⟨ref,mine⟩ := Option.ne_none_iff_exists'.mp known
  have registered := held.owned g graph name ref there mine
  refine ⟨ref,mine,registered,?_⟩
  intro o other n found theirs
  obtain ⟨h,here,entry⟩ := held.coherent.known name ref registered
  obtain ⟨h',here',entry'⟩ := held.coherent.known n ref (held.owned o other n ref found theirs)
  cases Option.some.inj (here.symm.trans here')
  have same : n = name := entry'.name.symm.trans entry.name
  rw [same] at theirs
  exact held.apart o g other graph name found there (by rw [theirs]; simp) known

theorem graphNamespace {r : List Namespace.Action}
    (ran : Machine.run (Namespace.step fnmatchcase) Namespace.initial r = some w) (there : w.graphs[g]? = some graph) :
    getGraphNamespace w g = if graph.decomposed then .error unregistered else .ok graph.nameSpace := by
  have held := runHeld ran
  have entry : ∀ e ∈ w.namespaceGraphs.entries, e.2 = g → e.1 = graph.nameSpace ∧ graph.decomposed = false := by
    rintro ⟨nameSpace,o⟩ member rfl
    obtain ⟨x,found,named,live | half⟩ := (held.mapped nameSpace o).mp (Dict.memEntry.mpr member)
    · cases Option.some.inj (there.symm.trans found)
      exact ⟨named.symm,live⟩
    · cases half
  unfold getGraphNamespace
  cases found : w.namespaceGraphs.entries.find? (fun e => e.2 = g) with
  | some e =>
    obtain ⟨named,live⟩ := entry e (List.mem_of_find?_eq_some found) (by simpa using List.find?_some found)
    simp [live,← named]
  | none =>
    cases gone : graph.decomposed with
    | true => rfl
    | false =>
      have mapped := Dict.memEntry.mp ((held.mapped graph.nameSpace g).mpr ⟨graph,there,rfl,.inl gone⟩)
      have none_ := List.find?_eq_none.mp found _ mapped
      simp at none_

theorem namespaceOwnership {r : List Namespace.Action}
    (ran : Machine.run (Namespace.step fnmatchcase) Namespace.initial r = some w) :
    (∀ (g o : Nat) (graph other : NodeGraph), w.graphs[g]? = some graph → w.graphs[o]? = some other →
      graph.decomposed = false → other.decomposed = false → graph.nameSpace = other.nameSpace → g = o) ∧
    (∀ nameSpace g, w.namespaceGraphs.get nameSpace = some g ↔
      ∃ graph, w.graphs[g]? = some graph ∧ graph.nameSpace = nameSpace ∧ graph.decomposed = false) ∧
    (∀ (g : Nat) (graph : NodeGraph), w.graphs[g]? = some graph → graph.decomposed = false →
      OwnHandler w g graph (getGraphDispatchName graph.nameSpace) ∧
      OwnHandler w g graph (fallbackName graph.nameSpace)) ∧
    (∀ definition nameSpace existOk error u,
      construct fnmatchcase w definition nameSpace existOk = .error (error,u) →
      Failed w u definition nameSpace existOk) ∧
    ∀ (g : Nat) (graph : NodeGraph) (force : Bool), w.graphs[g]? = some graph → graph.decomposed = true →
      decompose fnmatchcase w g force = .ok w := by
  have held := runHeld ran
  have mapped : ∀ nameSpace g, w.namespaceGraphs.get nameSpace = some g ↔
      ∃ graph, w.graphs[g]? = some graph ∧ graph.nameSpace = nameSpace ∧ graph.decomposed = false := by
    intro nameSpace g
    refine (held.mapped nameSpace g).trans ?_
    simp
  refine ⟨?_,mapped,?_,?_,fun g graph force there gone => decomposedAgain there gone force⟩
  · intro g o graph other there there' live live' same
    have first := (mapped graph.nameSpace g).mpr ⟨graph,there,rfl,live⟩
    have second := (mapped graph.nameSpace o).mpr ⟨other,there',same.symm,live'⟩
    exact Option.some.inj (first.symm.trans second)
  · intro g graph there live
    obtain ⟨dispatch,fallback⟩ := held.both g graph there live
    exact ⟨ownHandler held there dispatch,ownHandler held there fallback⟩
  · intro definition nameSpace existOk error u raised
    rcases constructCases held definition nameSpace existOk with ⟨_,v,raised',_,failed⟩ | ⟨v,done,_⟩
    · cases raised.symm.trans raised'
      exact failed
    · cases raised.symm.trans done

/- A graph, one whose fallback name is taken, and a successor of the first. -/
def takeover : List Namespace.Action :=
  [.construct (.ok ()) (some "a") 1 false,.addInterruptedHook 0 none,
    .user (.subscribe (one ["x"] .none .none) (.function (fallbackName "b") (.function 7))),
    .construct (.ok ()) (some "b") 2 false,.construct (.ok ()) (some "a") 3 true,.decompose 0 true]

def takenWorld : World :=
  (Machine.run (Namespace.step exactly) Namespace.initial takeover).getD Namespace.initial

theorem takeoverRan :
    Machine.run (Namespace.step exactly) Namespace.initial takeover = some takenWorld := rfl

theorem namespaceOwnershipTakeover :
    takenWorld.graphs.map NodeGraph.decomposed = [true,true,false] ∧
    takenWorld.namespaceGraphs.get "a" = some 2 ∧
    ∀ (g : Nat) (graph : NodeGraph) (force : Bool), takenWorld.graphs[g]? = some graph →
      graph.decomposed = true → decompose exactly takenWorld g force = .ok takenWorld :=
  ⟨by decide,by decide,(namespaceOwnership takeoverRan).2.2.2.2⟩

end Apixis.NamespaceOwnership
