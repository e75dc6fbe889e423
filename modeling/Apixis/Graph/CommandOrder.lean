import Apixis.Graph.CommandFold
import Apixis.Library.Precedence
import Mathlib.Data.List.Pairwise

/-! Which batches `apply_command` refuses, and that the order of the nodes does
not matter to what it commits as long as no merged key is shared. -/
namespace Apixis.CommandOrder
open NodeGraph ApplyCommand CommandFold PyError

variable {V : Type} {values : Values V} {graph : Graph} {g : Nat} {x : GraphContext V}
  {nodeName other target first second : Target} {pairs more : List (String × Result V)}
  {state after later : StateDict V} {key : String} {commands : List (Command V)}
  {groups : List (String × List (Command V))} {gotos : List Goto}

/- The checks of `apply_command` before it looks at the batch. -/
def Ready (g : Nat) (graph : Graph) (x : GraphContext V) : Prop :=
  graph.decomposed = false ∧ x.graphId = g ∧ x.status.terminal = false

def commandsIn (result : Result V) : List (Command V) :=
  match commandGroup result with
  | .ok commands => commands
  | .error _ => []

def groupsIn (pairs : List (String × Result V)) : List (String × List (Command V)) :=
  pairs.map (fun p => (p.1,commandsIn p.2))

/- A result made of commands, each with a dict that can be copied and a valid goto. -/
def Formed (values : Values V) (graph : Compiled) (result : Result V) : Prop :=
  commandGroup result = .ok (commandsIn result) ∧ ∀ c ∈ commandsIn result, WellFormed values graph c

def Adds (values : Values V) (graph : Compiled) (state : StateDict V)
    (pairs : List (String × Result V)) : Prop :=
  ∀ key ∈ graph.autoMergeKeys,
    (folded values true (state.get key) (updatesOf key (commandsOf (groupsIn pairs)))).isSome

/- Two different nodes of the batch update a key that satisfies `shared`. -/
def Shared (shared : String → Prop) (pairs : List (String × Result V)) : Prop :=
  ∃ p ∈ pairs, ∃ q ∈ pairs, p.1 ≠ q.1 ∧ ∃ key, shared key ∧
    key ∈ keysOf (commandsIn p.2) ∧ key ∈ keysOf (commandsIn q.2)

def Alike : Target → Target → Prop
  | .node name, .node name' => name = name'
  | .batch names, .batch names' => names.Perm names'
  | _, _ => False

theorem readyChecks : Ready g graph x ↔
    ensureNotDecomposed graph = .ok () ∧ (x.graphId != g || x.status.terminal) = false := by
  unfold Ready ensureNotDecomposed
  rw [raiseIfOk]
  simp

theorem groupsInOk {groups : List (List (Command V))}
    (done : commandGroups (pairs.map Prod.snd) = .ok groups) :
    groups = pairs.map (fun p => commandsIn p.2) ∧
      ∀ p ∈ pairs, commandGroup p.2 = .ok (commandsIn p.2) := by
  induction pairs generalizing groups with
  | nil => cases done; exact ⟨rfl,nofun⟩
  | cons p rest ih =>
    simp only [List.map_cons,commandGroups,bindOk] at done
    obtain ⟨group,head,others,tail,last⟩ := done
    cases last
    obtain ⟨same,all⟩ := ih tail
    have mine : commandsIn p.2 = group := by rw [commandsIn,head]
    refine ⟨by rw [List.map_cons,mine,same],?_⟩
    intro q member
    rcases List.mem_cons.mp member with rfl | deep
    · rw [mine]
      exact head
    · exact all q deep

theorem groupsInSucceed (all : ∀ p ∈ pairs, commandGroup p.2 = .ok (commandsIn p.2)) :
    commandGroups (pairs.map Prod.snd) = .ok (pairs.map (fun p => commandsIn p.2)) := by
  induction pairs with
  | nil => rfl
  | cons p rest ih =>
    have head := all p List.mem_cons_self
    have tail := ih (fun q member => all q (List.mem_cons_of_mem _ member))
    simp only [List.map_cons,commandGroups,head,tail,bind,Except.bind,pure,Except.pure]

theorem zipIn (pairs : List (String × Result V)) :
    (pairs.map Prod.fst).zip (pairs.map (fun p => commandsIn p.2)) = groupsIn pairs := by
  rw [List.zip_map',groupsIn]

theorem callExactly (names : Target.normaliseTargets nodeName = .ok (pairs.map Prod.fst)) :
    applyCommand values g graph (pairs.map Prod.snd) nodeName x = .ok (target,after) ↔
      Ready g graph x ∧ (∀ p ∈ pairs, commandGroup p.2 = .ok (commandsIn p.2)) ∧
      ∃ batch, applyGroups values graph.toCompiled (.start x.state) (groupsIn pairs) = .ok batch ∧
        target = nextNode batch ∧ after = batch.state := by
  have lengths : ((pairs.map Prod.snd).length != (pairs.map Prod.fst).length) = false := by simp
  constructor
  · intro done
    simp only [applyCommand,commitBatch,normaliseCommandGroups,bindOk,leavingOk,raiseIfOk,exists_const,
      names] at done
    obtain ⟨_,alive,own,listed,same,groups,⟨_,grouped⟩,last⟩ := done
    cases same
    obtain ⟨rfl,all⟩ := groupsInOk grouped
    rw [zipIn] at last
    refine ⟨readyChecks.mpr ⟨alive,own⟩,all,?_⟩
    split at last
    · rename_i batch applied
      cases last
      exact ⟨batch,applied,rfl,rfl⟩
    · contradiction
  · rintro ⟨ready,all,batch,applied,rfl,rfl⟩
    obtain ⟨alive,own⟩ := readyChecks.mp ready
    have grouped := groupsInSucceed all
    simp only [applyCommand,commitBatch,normaliseCommandGroups,alive,own,names,lengths,grouped,raiseIf,
      PyError.leavingReturned,bind,Except.bind,pure,Except.pure,Bool.false_eq_true,if_false,zipIn,applied]

theorem commandsGroups (pairs : List (String × Result V)) :
    commandsOf (groupsIn pairs) = pairs.flatMap (fun p => commandsIn p.2) := by
  rw [commandsOf,groupsIn,List.flatMap_map]

theorem keyUpdated : key ∈ keysOf commands ↔ updatesOf key commands ≠ [] := by
  rw [← entryUpdatesOf,keysOf,entryUpdates,ne_eq,List.map_eq_nil_iff,List.filter_eq_nil_iff]
  constructor
  · intro member none_
    obtain ⟨e,inside,same⟩ := List.mem_map.mp member
    exact none_ e inside (by simpa using same)
  · intro some_
    by_contra missing
    refine some_ ?_
    intro e inside same
    rw [decide_eq_true_eq] at same
    exact missing (List.mem_map.mpr ⟨e,inside,same⟩)

theorem plainDefined (current : Option V) (updates : List (Update V)) :
    (folded values false current updates).isSome := by
  induction updates generalizing current with
  | nil => rfl
  | cons u rest ih =>
    rw [folded]
    cases u with
    | reset v => exact ih (some v)
    | value v =>
      cases current with
      | none => exact ih (some v)
      | some w => exact ih (some v)

theorem addsDefined (adds : Adds values graph.toCompiled state pairs) (key : String) :
    (folded values (graph.autoMergeKeys.contains key) (state.get key)
      (updatesOf key (commandsOf (groupsIn pairs)))).isSome := by
  by_cases auto : key ∈ graph.autoMergeKeys
  · rw [List.contains_eq_mem,decide_eq_true auto]
    exact adds key auto
  · rw [List.contains_eq_mem,decide_eq_false auto]
    exact plainDefined _ _

theorem apartSymm {graph : Compiled} {a b : String × List (Command V)} (apart : Apart graph a b) :
    Apart graph b a := by
  intro k member
  by_cases auto : k ∈ graph.autoMergeKeys
  · exact .inl auto
  · exact .inr (fun also => (apart k also).elim auto (fun away => away member))

theorem groupsApart (pairs : List (String × Result V)) :
    (groupsIn pairs).Pairwise (Apart graph.toCompiled) ↔
      pairs.Pairwise (fun p q => Apart graph.toCompiled (p.1,commandsIn p.2) (q.1,commandsIn q.2)) :=
  List.pairwise_map

/- With distinct nodes the groups are apart unless two of them share a plain key. -/
theorem apartExactly (distinct : (pairs.map Prod.fst).Nodup) :
    (groupsIn pairs).Pairwise (Apart graph.toCompiled) ↔
      ¬ Shared (fun key => key ∉ graph.autoMergeKeys) pairs := by
  rw [groupsApart]
  constructor
  · rintro apart ⟨p,inside,q,also,different,key,plain,left,right⟩
    have unequal : p ≠ q := fun same => different (congrArg Prod.fst same)
    have symmetric : Std.Symm (fun p q : String × Result V =>
        Apart graph.toCompiled (p.1,commandsIn p.2) (q.1,commandsIn q.2)) := ⟨fun _ _ => apartSymm⟩
    have both := apart.forall inside also unequal
    rcases both key right with auto | away
    · exact plain auto
    · exact away left
  · intro alone
    refine (List.pairwise_map.mp distinct).imp_of_mem ?_
    intro p q inside also different k member
    by_cases auto : k ∈ graph.autoMergeKeys
    · exact .inl auto
    · exact .inr (fun early => alone ⟨p,inside,q,also,different,k,auto,early,member⟩)

theorem formedAll (formed : ∀ p ∈ pairs, Formed values graph.toCompiled p.2) :
    ∀ c ∈ commandsOf (groupsIn pairs), WellFormed values graph.toCompiled c := by
  intro c member
  rw [commandsGroups] at member
  obtain ⟨p,inside,mine⟩ := List.mem_flatMap.mp member
  exact (formed p inside).2 c mine

theorem commitsCall (names : Target.normaliseTargets nodeName = .ok (pairs.map Prod.fst)) :
    (∃ target after, applyCommand values g graph (pairs.map Prod.snd) nodeName x = .ok (target,after)) ↔
      Ready g graph x ∧ (∀ p ∈ pairs, Formed values graph.toCompiled p.2) ∧
      (groupsIn pairs).Pairwise (Apart graph.toCompiled) ∧ Adds values graph.toCompiled x.state pairs := by
  constructor
  · rintro ⟨target,after,done⟩
    obtain ⟨ready,all,batch,applied,_⟩ := (callExactly names).mp done
    obtain ⟨formed,apart,defined⟩ := commitsExactly.mp ⟨batch,applied⟩
    refine ⟨ready,fun p inside => ⟨all p inside,?_⟩,apart,?_⟩
    · intro c mine
      refine formed c ?_
      rw [commandsGroups]
      exact List.mem_flatMap.mpr ⟨p,inside,mine⟩
    · intro key auto
      have here := defined key
      rw [List.contains_eq_mem,decide_eq_true auto] at here
      exact here
  · rintro ⟨ready,formed,apart,adds⟩
    obtain ⟨batch,applied⟩ := commitsExactly.mpr ⟨formedAll formed,apart,addsDefined adds⟩
    exact ⟨_,_,(callExactly names).mpr ⟨ready,fun p inside => (formed p inside).1,batch,applied,rfl,rfl⟩⟩

theorem failsExactly {ε α : Type} {call : Except ε α} :
    (∃ failure, call = .error failure) ↔ ¬ ∃ result, call = .ok result := by
  cases call with
  | error failure => simp
  | ok result => simp

theorem raisesExactly (ready : Ready g graph x)
    (names : Target.normaliseTargets nodeName = .ok (pairs.map Prod.fst))
    (distinct : (pairs.map Prod.fst).Nodup) (formed : ∀ p ∈ pairs, Formed values graph.toCompiled p.2)
    (adds : Adds values graph.toCompiled x.state pairs) :
    (∃ failure, applyCommand values g graph (pairs.map Prod.snd) nodeName x = .error failure) ↔
      Shared (fun key => key ∉ graph.autoMergeKeys) pairs := by
  rw [failsExactly,Prod.exists,commitsCall names,apartExactly distinct]
  constructor
  · intro fails
    by_contra alone
    exact fails ⟨ready,formed,alone,adds⟩
  · intro shared commits
    exact commits.2.2.1 shared

theorem updatesPerm (perm : pairs.Perm more) (distinct : (pairs.map Prod.fst).Nodup)
    (alone : ¬ Shared (fun k => k = key) pairs) :
    updatesOf key (commandsOf (groupsIn pairs)) = updatesOf key (commandsOf (groupsIn more)) := by
  have each : ∀ l : List (String × Result V), updatesOf key (commandsOf (groupsIn l)) =
      l.flatMap (fun p => updatesOf key (commandsIn p.2)) := by
    intro l
    rw [commandsGroups,updatesOf,List.flatMap_assoc]
    rfl
  rw [each,each]
  refine Precedence.flatMapPerm perm ((List.pairwise_map.mp distinct).imp_of_mem ?_)
  intro p q inside also different
  by_contra both
  obtain ⟨left,right⟩ := not_or.mp both
  exact alone ⟨p,inside,q,also,different,key,rfl,keyUpdated.mpr left,keyUpdated.mpr right⟩

theorem namedPerm {others : List Goto} (perm : gotos.Perm others) : (named gotos).Perm (named others) := by
  refine (List.perm_ext_iff_of_nodup (Target.nodupFirsts _) (Target.nodupFirsts _)).mpr ?_
  intro name
  change name ∈ named gotos ↔ name ∈ named others
  rw [memNamed,memNamed,(perm.flatMap_right namesOf).mem_iff]

theorem anyPerm {α : Type} {f : α → Bool} {l l' : List α} (perm : l.Perm l') : l.any f = l'.any f := by
  rw [Bool.eq_iff_iff,List.any_eq_true,List.any_eq_true]
  exact exists_congr (fun a => and_congr_left' perm.mem_iff)

theorem nextPerm {others : List Goto} (perm : gotos.Perm others) : Alike (nextOf gotos) (nextOf others) := by
  have same := namedPerm perm
  have lists := anyPerm (f := listed) perm
  unfold nextOf
  rw [lists]
  cases left : named gotos with
  | nil =>
    rw [left] at same
    rw [same.nil_eq.symm]
    rfl
  | cons name rest =>
    rw [left] at same
    cases rest with
    | nil =>
      rw [same.singleton_eq.symm]
      cases others.any listed with
      | true => exact List.Perm.refl _
      | false => rfl
    | cons again deep =>
      have long := same.length_eq
      cases right : named others with
      | nil => simp [right] at long
      | cons name' rest' =>
        cases rest' with
        | nil => simp [right] at long
        | cons again' deep' =>
          rw [right] at same
          exact same

theorem formedPerm (perm : pairs.Perm more) (formed : ∀ p ∈ pairs, Formed values graph.toCompiled p.2) :
    ∀ p ∈ more, Formed values graph.toCompiled p.2 :=
  fun p member => formed p (perm.mem_iff.mpr member)

theorem sharedPerm {shared : String → Prop} (perm : pairs.Perm more) (some_ : Shared shared pairs) :
    Shared shared more := by
  obtain ⟨p,inside,q,also,rest⟩ := some_
  exact ⟨p,perm.mem_iff.mp inside,q,perm.mem_iff.mp also,rest⟩

theorem alonePerm (perm : pairs.Perm more) (alone : ¬ Shared (fun k => k ∈ graph.autoMergeKeys) pairs) :
    ¬ Shared (fun k => k ∈ graph.autoMergeKeys) more :=
  fun some_ => alone (sharedPerm perm.symm some_)

theorem commitsPerm (perm : pairs.Perm more) (distinct : (pairs.map Prod.fst).Nodup)
    (alone : ¬ Shared (fun k => k ∈ graph.autoMergeKeys) pairs)
    (names : Target.normaliseTargets nodeName = .ok (pairs.map Prod.fst))
    (reordered : Target.normaliseTargets other = .ok (more.map Prod.fst))
    (commits : ∃ target after,
      applyCommand values g graph (pairs.map Prod.snd) nodeName x = .ok (target,after)) :
    ∃ target after, applyCommand values g graph (more.map Prod.snd) other x = .ok (target,after) := by
  obtain ⟨ready,formed,apart,adds⟩ := (commitsCall names).mp commits
  have again : (more.map Prod.fst).Nodup := (perm.map Prod.fst).nodup_iff.mp distinct
  refine (commitsCall reordered).mpr ⟨ready,formedPerm perm formed,?_,?_⟩
  · rw [apartExactly again]
    intro some_
    exact (apartExactly distinct).mp apart (sharedPerm perm.symm some_)
  · intro key auto
    rw [← updatesPerm perm distinct (fun some_ => alone ?_)]
    · exact adds key auto
    · obtain ⟨p,inside,q,also,different,k,same,both⟩ := some_
      exact ⟨p,inside,q,also,different,k,by rw [same]; exact auto,both⟩

theorem commitsSame (perm : pairs.Perm more) (distinct : (pairs.map Prod.fst).Nodup)
    (alone : ¬ Shared (fun k => k ∈ graph.autoMergeKeys) pairs)
    (names : Target.normaliseTargets nodeName = .ok (pairs.map Prod.fst))
    (reordered : Target.normaliseTargets other = .ok (more.map Prod.fst))
    (left : applyCommand values g graph (pairs.map Prod.snd) nodeName x = .ok (first,after))
    (right : applyCommand values g graph (more.map Prod.snd) other x = .ok (second,later)) :
    (∀ key, after.get key = later.get key) ∧ Alike first second := by
  obtain ⟨_,_,batch,applied,rfl,rfl⟩ := (callExactly names).mp left
  obtain ⟨_,_,batch',applied',rfl,rfl⟩ := (callExactly reordered).mp right
  have one := groupsCommit applied
  have two := groupsCommit applied'
  have plain := (apartExactly distinct).mp one.apart
  constructor
  · intro key
    have lone : ¬ Shared (fun k => k = key) pairs := by
      rintro ⟨p,inside,q,also,different,k,rfl,both⟩
      by_cases auto : k ∈ graph.autoMergeKeys
      · exact alone ⟨p,inside,q,also,different,k,auto,both⟩
      · exact plain ⟨p,inside,q,also,different,k,auto,both⟩
    have fold := one.states key
    rw [updatesPerm perm distinct lone,two.states key] at fold
    exact (Option.some.inj fold).symm
  · rw [one.target,two.target]
    refine nextPerm (List.Perm.map _ ?_)
    rw [commandsGroups,commandsGroups]
    exact perm.flatMap_right _

theorem conflicts (names : Target.normaliseTargets nodeName = .ok (pairs.map Prod.fst))
    (distinct : (pairs.map Prod.fst).Nodup) :
    (Ready g graph x → (∀ p ∈ pairs, Formed values graph.toCompiled p.2) →
      Adds values graph.toCompiled x.state pairs →
      ((∃ failure, applyCommand values g graph (pairs.map Prod.snd) nodeName x = .error failure) ↔
        Shared (fun key => key ∉ graph.autoMergeKeys) pairs)) ∧
    ∀ more other, pairs.Perm more → Target.normaliseTargets other = .ok (more.map Prod.fst) →
      ¬ Shared (fun key => key ∈ graph.autoMergeKeys) pairs →
      ((∃ failure, applyCommand values g graph (pairs.map Prod.snd) nodeName x = .error failure) ↔
        ∃ failure, applyCommand values g graph (more.map Prod.snd) other x = .error failure) ∧
      ∀ first after second later,
        applyCommand values g graph (pairs.map Prod.snd) nodeName x = .ok (first,after) →
        applyCommand values g graph (more.map Prod.snd) other x = .ok (second,later) →
        (∀ key, after.get key = later.get key) ∧ Alike first second := by
  constructor
  · intro ready formed adds
    exact raisesExactly ready names distinct formed adds
  · intro more other perm reordered alone
    have again : (more.map Prod.fst).Nodup := (perm.map Prod.fst).nodup_iff.mp distinct
    refine ⟨?_,fun first after second later => commitsSame perm distinct alone names reordered⟩
    rw [failsExactly,failsExactly,Prod.exists,Prod.exists,not_iff_not]
    exact ⟨commitsPerm perm distinct alone names reordered,
      commitsPerm perm.symm again (alonePerm perm alone) reordered names⟩

def apartNodes : List (String × Result (List Nat)) :=
  [("a",.command ⟨some ((Dict.empty.set "log" (.value [1])).set "x" (.value [7])),.target (.node "c")⟩),
    ("b",.command ⟨some (Dict.empty.set "y" (.value [2])),.target (.batch ["c"])⟩)]

def forward : StateDict (List Nat) :=
  (((Dict.empty.set "log" [0]).set "log" [0,1]).set "x" [7]).set "y" [2]

def backward : StateDict (List Nat) :=
  (((Dict.empty.set "log" [0]).set "y" [2]).set "log" [0,1]).set "x" [7]

theorem apartFormed : ∀ p ∈ apartNodes, Formed totals ledger.toCompiled p.2 := by
  intro p member
  rcases List.mem_cons.mp member with rfl | deep
  · refine ⟨rfl,?_⟩
    intro c mine
    cases List.mem_singleton.mp mine
    exact ⟨_,rfl,rfl,nofun⟩
  · cases List.mem_singleton.mp deep
    refine ⟨rfl,?_⟩
    intro c mine
    cases List.mem_singleton.mp mine
    exact ⟨_,rfl,rfl,nofun⟩

theorem apartAdds : Adds totals ledger.toCompiled ledgerContext.state apartNodes := by
  intro key auto
  cases List.mem_singleton.mp auto
  rfl

theorem apartKeys {s : String × Result (List Nat)} {key : String} (member : s ∈ apartNodes)
    (mine : key ∈ keysOf (commandsIn s.2)) : s.1 = "a" ∧ key ≠ "y" ∨ s.1 = "b" ∧ key = "y" := by
  rcases List.mem_cons.mp member with rfl | deep
  · rcases List.mem_cons.mp mine with rfl | more
    · decide
    · cases List.mem_singleton.mp more
      decide
  · cases List.mem_singleton.mp deep
    cases List.mem_singleton.mp mine
    decide

theorem apartAlone (which : String → Prop) : ¬ Shared which apartNodes := by
  rintro ⟨p,inside,q,also,different,key,_,left,right⟩
  rcases apartKeys inside left with ⟨one,other⟩ | ⟨one,same⟩
  · rcases apartKeys also right with ⟨two,_⟩ | ⟨_,same⟩
    · exact different (one.trans two.symm)
    · exact other same
  · rcases apartKeys also right with ⟨_,other⟩ | ⟨two,_⟩
    · exact other same
    · exact different (one.trans two.symm)

theorem conflictsApart :
    ((∃ failure, applyCommand totals 0 ledger (apartNodes.map Prod.snd) (.batch ["a","b"]) ledgerContext =
        .error failure) ↔ Shared (fun key => key ∉ ledger.autoMergeKeys) apartNodes) ∧
    ((∃ failure, applyCommand totals 0 ledger (apartNodes.map Prod.snd) (.batch ["a","b"]) ledgerContext =
        .error failure) ↔
      ∃ failure, applyCommand totals 0 ledger (apartNodes.reverse.map Prod.snd) (.batch ["b","a"])
        ledgerContext = .error failure) ∧
    (∀ key, forward.get key = backward.get key) ∧ Alike (.batch ["c"]) (.batch ["c"]) := by
  have whole := @conflicts _ totals ledger 0 ledgerContext (.batch ["a","b"]) apartNodes rfl (by decide)
  have second := whole.2 apartNodes.reverse (.batch ["b","a"]) apartNodes.reverse_perm.symm rfl (apartAlone _)
  have same := second.2 (.batch ["c"]) forward (.batch ["c"]) backward rfl rfl
  exact ⟨whole.1 ⟨rfl,rfl,rfl⟩ apartFormed apartAdds,second.1,same⟩

/- A value that `copy.deepcopy` refuses, such as a lock. -/
def locked : Values (List Nat) := ⟨fun _ => false,fun a => some (fun b => .ok (some (a ++ b))),fun _ => "lock"⟩

def lockNode : List (String × Result (List Nat)) :=
  [("a",.command ⟨some (Dict.empty.set "x" (.value [1])),.none⟩)]

/- One node is refused for its value, and an ended context whatever the batch. -/
theorem conflictsOtherwise :
    (¬ ∀ (values : Values (List Nat)) (x : GraphContext (List Nat)) (nodeName : Target)
      (pairs : List (String × Result (List Nat))),
      Target.normaliseTargets nodeName = .ok (pairs.map Prod.fst) → (pairs.map Prod.fst).Nodup →
      Ready 0 ledger x → (∀ p ∈ pairs, commandGroup p.2 = .ok (commandsIn p.2) ∧
        ∀ c ∈ commandsIn p.2, c.update.isSome ∧ c.goto ≠ .other) →
      Adds values ledger.toCompiled x.state pairs →
      ((∃ failure, applyCommand values 0 ledger (pairs.map Prod.snd) nodeName x = .error failure) ↔
        Shared (fun key => key ∉ ledger.autoMergeKeys) pairs)) ∧
    ¬ ∀ (values : Values (List Nat)) (x : GraphContext (List Nat)) (nodeName : Target)
      (pairs : List (String × Result (List Nat))),
      Target.normaliseTargets nodeName = .ok (pairs.map Prod.fst) → (pairs.map Prod.fst).Nodup →
      (∀ p ∈ pairs, Formed values ledger.toCompiled p.2) → Adds values ledger.toCompiled x.state pairs →
      ((∃ failure, applyCommand values 0 ledger (pairs.map Prod.snd) nodeName x = .error failure) ↔
        Shared (fun key => key ∉ ledger.autoMergeKeys) pairs) := by
  constructor
  · intro always
    have exactly := always locked ledgerContext (.node "a") lockNode rfl (by decide) ⟨rfl,rfl,rfl⟩ ?_ ?_
    · obtain ⟨p,inside,q,also,different,_⟩ := exactly.mp ⟨_,rfl⟩
      cases List.mem_singleton.mp inside
      cases List.mem_singleton.mp also
      exact different rfl
    · intro p member
      cases List.mem_singleton.mp member
      refine ⟨rfl,?_⟩
      intro c mine
      cases List.mem_singleton.mp mine
      exact ⟨rfl,nofun⟩
    · intro key auto
      cases List.mem_singleton.mp auto
      rfl
  · intro always
    have exactly := always totals {ledgerContext with status := .finished} (.batch ["a","b"]) apartNodes
      rfl (by decide) apartFormed apartAdds
    exact apartAlone _ (exactly.mp ⟨_,rfl⟩)

end Apixis.CommandOrder
