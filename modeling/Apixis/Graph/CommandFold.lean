import Apixis.Graph.ApplyCommand

/-! What `apply_command` computes, key by key. A batch is a list of updates of
each key in the order of its nodes and commands; it commits exactly when every
command is well formed, no key that is not merged is updated by two nodes and
every key has a defined fold. -/
namespace Apixis.CommandFold
open NodeGraph ApplyCommand PyError

variable {V : Type} {values : Values V} {graph : Compiled} {state : StateDict V}
  {node key : String} {keys prior mine names : List String} {batch next : Batch V}
  {entries : List (String × Update V)} {command : Command V} {commands : List (Command V)}
  {goto : Goto} {gotos : List Goto} {u : Update V} {v : V}

/- `current.__add__(update)`, where it is defined. -/
def sum (values : Values V) (current update : V) : Option V :=
  (values.add current).bind (fun addMethod => (addMethod update).toOption.bind id)

/- One update of a key that may be absent; `auto` says that the key is merged. -/
def combined (values : Values V) (auto : Bool) : Option V → Update V → Option V
  | _, .reset v => some v
  | none, .value v => some v
  | some current, .value v => if auto then sum values current v else some v

def folded (values : Values V) (auto : Bool) : Option V → List (Update V) → Option (Option V)
  | current, [] => some current
  | current, u :: rest => (combined values auto current u).bind (fun v => folded values auto (some v) rest)

def updatesOf (key : String) (commands : List (Command V)) : List (Update V) :=
  commands.flatMap (fun c => (c.update.bind (fun d => d.get key)).toList)

def entriesOf (commands : List (Command V)) : List (String × Update V) :=
  commands.flatMap (fun c => (c.update.map Dict.entries).getD [])

def keysOf (commands : List (Command V)) : List String := (entriesOf commands).map Prod.fst

def namesOf : Goto → List String
  | .target (.node name) => [name]
  | .target (.batch names) => names
  | _ => []

def named (gotos : List Goto) : List String := Target.distinctNames (gotos.flatMap namesOf)

def listed : Goto → Bool
  | .target (.batch names) => names.any (fun name => name != END)
  | _ => false

def nextOf (gotos : List Goto) : Target :=
  match named gotos with
  | [] => .node END
  | [name] => if gotos.any listed then .batch [name] else .node name
  | names => .batch names

def entryUpdates (key : String) (entries : List (String × Update V)) : List (Update V) :=
  (entries.filter (fun e => e.1 = key)).map Prod.snd

theorem foldedAppend (auto : Bool) (current : Option V) (before after : List (Update V)) :
    folded values auto current (before ++ after) =
      (folded values auto current before).bind (fun middle => folded values auto middle after) := by
  induction before generalizing current with
  | nil => rfl
  | cons u rest ih =>
    simp only [List.cons_append,folded]
    cases combined values auto current u with
    | none => rfl
    | some v => exact ih (some v)

theorem entryUpdatesOf (key : String) (commands : List (Command V)) :
    entryUpdates key (entriesOf commands) = updatesOf key commands := by
  induction commands with
  | nil => rfl
  | cons c rest ih =>
    have tail : (List.filter (fun e => decide (e.1 = key)) (entriesOf rest)).map Prod.snd =
        updatesOf key rest := ih
    simp only [entryUpdates,entriesOf,updatesOf,List.flatMap_cons,List.filter_append,List.map_append]
    simp only [entriesOf,updatesOf] at tail
    rw [tail]
    cases c.update with
    | none => rfl
    | some d =>
      rw [Option.map_some,Option.getD_some,Dict.entriesOf]
      rfl

theorem mergedSum (current update : V) :
    merged values key current update = .ok v ↔ sum values current update = some v := by
  unfold merged sum
  cases values.add current with
  | none => simp
  | some addMethod =>
    simp only [Option.bind_some]
    cases addMethod update with
    | error e => simp [bind,Except.bind,Except.toOption]
    | ok w => cases w <;> simp [bind,Except.bind,Except.toOption,pure,Except.pure,throw,throwThe,
        MonadExceptOf.throw]

theorem storedCombined : stored values graph state key u = .ok v ↔
    combined values (graph.autoMergeKeys.contains key) (state.get key) u = some v := by
  cases u with
  | reset w => simp [stored,combined]
  | value w =>
    unfold stored combined
    cases state.get key with
    | none => simp
    | some current =>
      cases graph.autoMergeKeys.contains key with
      | true => simpa using mergedSum current w
      | false => simp

/- No key of the entries belongs to a node that came before, unless it is merged. -/
def Free (graph : Compiled) (prior keys : List String) : Prop :=
  ∀ k ∈ keys, k ∈ graph.autoMergeKeys ∨ k ∉ prior

/- What the two sets of the loop hold, in the keys of the earlier nodes and of
the present one. -/
structure Tracks (graph : Compiled) (batch : Batch V) (prior mine : List String) : Prop where
  updated : ∀ k, k ∈ batch.updatedNormalKeys ↔ k ∉ graph.autoMergeKeys ∧ (k ∈ prior ∨ k ∈ mine)
  current : ∀ k, k ∈ batch.currentNodeNormalKeys ↔ k ∉ graph.autoMergeKeys ∧ k ∈ mine
  clean : Free graph prior mine

/- What writing some entries of one node does to the batch. -/
structure Wrote (values : Values V) (graph : Compiled) (prior mine : List String)
    (entries : List (String × Update V)) (batch next : Batch V) : Prop where
  free : Free graph prior (entries.map Prod.fst)
  states : ∀ key, folded values (graph.autoMergeKeys.contains key) (batch.state.get key)
    (entryUpdates key entries) = some (next.state.get key)
  tracks : Tracks graph next prior (mine ++ entries.map Prod.fst)

def Defined (values : Values V) (graph : Compiled) (state : StateDict V)
    (entries : List (String × Update V)) : Prop :=
  ∀ key, (folded values (graph.autoMergeKeys.contains key) (state.get key)
    (entryUpdates key entries)).isSome

theorem noteAllowed (tracks : Tracks graph batch prior mine)
    (allowed : key ∈ graph.autoMergeKeys ∨ key ∉ prior) :
    ∃ noted, noteKey graph node key batch = .ok noted ∧ Tracks graph noted prior (mine ++ [key]) ∧
      noted.state = batch.state ∧ noted.nextTargets = batch.nextTargets ∧
      noted.concurrent = batch.concurrent := by
  have clean : Free graph prior (mine ++ [key]) := by
    intro k member
    rcases List.mem_append.mp member with old | new
    · exact tracks.clean k old
    · rw [List.mem_singleton.mp new]
      exact allowed
  unfold noteKey
  by_cases auto : key ∈ graph.autoMergeKeys
  · refine ⟨batch,by simp [auto],⟨?_,?_,clean⟩,rfl,rfl,rfl⟩
    · intro k
      rw [tracks.updated]
      by_cases same : k = key
      · simp [same,auto]
      · simp [same]
    · intro k
      rw [tracks.current]
      by_cases same : k = key
      · simp [same,auto]
      · simp [same]
  · have passes : (batch.updatedNormalKeys.contains key && !batch.currentNodeNormalKeys.contains key) =
        false := by
      have fresh := allowed.resolve_left auto
      have updated := tracks.updated key
      have current := tracks.current key
      by_cases again : key ∈ mine
      · simp [List.contains_eq_mem,current,auto,again]
      · simp [List.contains_eq_mem,updated,fresh,again]
    refine ⟨{batch with
      updatedNormalKeys := key :: batch.updatedNormalKeys
      currentNodeNormalKeys := key :: batch.currentNodeNormalKeys},?_,⟨?_,?_,clean⟩,rfl,rfl,rfl⟩
    · simp only [List.contains_eq_mem,decide_eq_false auto,Bool.false_eq_true,if_false] at passes ⊢
      rw [passes]
      rfl
    · intro k
      rw [List.mem_cons,tracks.updated]
      by_cases same : k = key
      · simp [same,auto]
      · simp [same]
    · intro k
      rw [List.mem_cons,tracks.current]
      by_cases same : k = key
      · simp [same,auto]
      · simp [same]

theorem noteRefused (tracks : Tracks graph batch prior mine)
    (refused : ¬ (key ∈ graph.autoMergeKeys ∨ key ∉ prior)) :
    noteKey graph node key batch = .error (conflictError node key) := by
  obtain ⟨plain,early⟩ := not_or.mp refused
  have seen : key ∈ prior := Classical.not_not.mp early
  have updated : key ∈ batch.updatedNormalKeys := (tracks.updated key).mpr ⟨plain,.inl seen⟩
  have current : key ∉ batch.currentNodeNormalKeys := by
    intro inside
    exact refused (tracks.clean key ((tracks.current key).mp inside).2)
  simp [noteKey,List.contains_eq_mem,plain,updated,current]

theorem entryUpdatesCons (key : String) (e : String × Update V) (rest : List (String × Update V)) :
    entryUpdates key (e :: rest) =
      if e.1 = key then e.2 :: entryUpdates key rest else entryUpdates key rest := by
  by_cases same : e.1 = key <;> simp [entryUpdates,same]

theorem entryWrites {e : String × Update V} (tracks : Tracks graph batch prior mine)
    (allowed : e.1 ∈ graph.autoMergeKeys ∨ e.1 ∉ prior)
    (value : combined values (graph.autoMergeKeys.contains e.1) (batch.state.get e.1) e.2 = some v) :
    ∃ next, applyEntry values graph node batch e = .ok next ∧
      next.state = batch.state.set e.1 v ∧ Tracks graph next prior (mine ++ [e.1]) ∧
      next.nextTargets = batch.nextTargets ∧ next.concurrent = batch.concurrent := by
  obtain ⟨noted,done,kept,state,targets,concurrent⟩ := @noteAllowed _ _ node _ _ _ _ tracks allowed
  have written : stored values graph noted.state e.1 e.2 = .ok v := by
    rw [state]
    exact storedCombined.mpr value
  refine ⟨{noted with state := noted.state.set e.1 v},?_,by rw [state],⟨kept.updated,kept.current,kept.clean⟩,
    targets,concurrent⟩
  simp only [applyEntry,done,written,PyError.leavingReturned,bind,Except.bind,pure,Except.pure]

theorem entryRefused {e : String × Update V} (tracks : Tracks graph batch prior mine)
    (refused : ¬ ((e.1 ∈ graph.autoMergeKeys ∨ e.1 ∉ prior) ∧
      (combined values (graph.autoMergeKeys.contains e.1) (batch.state.get e.1) e.2).isSome)) :
    ∃ failure, applyEntry values graph node batch e = .error failure := by
  by_cases allowed : e.1 ∈ graph.autoMergeKeys ∨ e.1 ∉ prior
  · obtain ⟨noted,done,_,state,_⟩ := @noteAllowed _ _ node _ _ _ _ tracks allowed
    cases written : stored values graph noted.state e.1 e.2 with
    | error error =>
      exact ⟨_,by simp only [applyEntry,done,written,PyError.leavingReturned,PyError.leavingRaised,bind,Except.bind]; rfl⟩
    | ok v =>
      rw [state] at written
      exact absurd ⟨allowed,by rw [storedCombined.mp written]; rfl⟩ refused
  · have raised := @noteRefused _ _ node _ _ _ _ tracks allowed
    exact ⟨_,by simp only [applyEntry,raised,PyError.leavingRaised,bind,Except.bind]; rfl⟩

theorem foldedEntry {e : String × Update V}
    (value : combined values (graph.autoMergeKeys.contains e.1) (batch.state.get e.1) e.2 = some v)
    (state : next.state = batch.state.set e.1 v) (rest : List (String × Update V)) (key : String) :
    folded values (graph.autoMergeKeys.contains key) (batch.state.get key) (entryUpdates key (e :: rest)) =
      folded values (graph.autoMergeKeys.contains key) (next.state.get key) (entryUpdates key rest) := by
  rw [entryUpdatesCons,state,Dict.getSet]
  by_cases same : e.1 = key
  · subst same
    simp only [if_true,folded,value,Option.bind_some]
  · simp only [same,Ne.symm same,if_false]

theorem entriesWrite (tracks : Tracks graph batch prior mine)
    (done : applyEntries values graph node batch entries = .ok next) :
    Wrote values graph prior mine entries batch next ∧
      next.nextTargets = batch.nextTargets ∧ next.concurrent = batch.concurrent := by
  induction entries generalizing batch mine with
  | nil =>
    cases done
    refine ⟨⟨nofun,fun _ => rfl,?_⟩,rfl,rfl⟩
    rw [List.map_nil,List.append_nil]
    exact tracks
  | cons e rest ih =>
    obtain ⟨middle,first,last⟩ := bindOk.mp done
    by_cases fine : (e.1 ∈ graph.autoMergeKeys ∨ e.1 ∉ prior) ∧
        (combined values (graph.autoMergeKeys.contains e.1) (batch.state.get e.1) e.2).isSome
    · obtain ⟨v,value⟩ := Option.isSome_iff_exists.mp fine.2
      obtain ⟨next',same,state,kept,targets,concurrent⟩ := @entryWrites _ _ _ node _ _ _ _ _ tracks fine.1 value
      cases Except.ok.inj (same.symm.trans first)
      obtain ⟨⟨free,states,after⟩,later⟩ := ih kept last
      refine ⟨⟨?_,?_,?_⟩,later.1.trans targets,later.2.trans concurrent⟩
      · intro k member
        rcases List.mem_cons.mp member with rfl | deep
        · exact fine.1
        · exact free k deep
      · intro key
        rw [foldedEntry value state]
        exact states key
      · rw [List.map_cons,List.append_cons]
        exact after
    · obtain ⟨failure,raised⟩ := @entryRefused _ _ _ node _ _ _ _ tracks fine
      rw [raised] at first
      contradiction

theorem entriesSucceed (tracks : Tracks graph batch prior mine)
    (free : Free graph prior (entries.map Prod.fst)) (defined : Defined values graph batch.state entries) :
    ∃ next, applyEntries values graph node batch entries = .ok next := by
  induction entries generalizing batch mine with
  | nil => exact ⟨batch,rfl⟩
  | cons e rest ih =>
    have here := defined e.1
    rw [entryUpdatesCons,if_pos rfl,folded] at here
    cases value : combined values (graph.autoMergeKeys.contains e.1) (batch.state.get e.1) e.2 with
    | none =>
      rw [value] at here
      contradiction
    | some v =>
      obtain ⟨middle,first,state,kept,_⟩ := @entryWrites _ _ _ node _ _ _ _ _ tracks
        (free e.1 List.mem_cons_self) value
      obtain ⟨next,last⟩ := ih kept (fun k member => free k (List.mem_cons_of_mem _ member)) (by
        intro key
        have whole := defined key
        rw [foldedEntry value state] at whole
        exact whole)
      exact ⟨next,bindOk.mpr ⟨middle,first,last⟩⟩

/- The update of a command is a dict that can be copied, and its goto is valid. -/
def WellFormed (values : Values V) (graph : Compiled) (c : Command V) : Prop :=
  ∃ given, c.update = some given ∧ copyUpdate values graph given = .ok given ∧ c.goto ≠ .other

structure Gathered (batch : Batch V) (gotos : List Goto) : Prop where
  names : batch.nextTargets.keys = named gotos
  concurrent : batch.concurrent = gotos.any listed

theorem distinctSnoc (names : List String) (name : String) :
    Target.distinctNames (names ++ [name]) =
      if name = END ∨ name ∈ names then Target.distinctNames names
      else Target.distinctNames names ++ [name] := by
  unfold Target.distinctNames
  rw [List.filter_append,List.eraseDups_append]
  by_cases ended : name = END
  · simp [ended,List.removeAll]
  · have kept : [name].filter (fun name => name != END) = [name] := by simp [ended]
    rw [kept]
    by_cases known : name ∈ names
    · simp [known,ended,List.removeAll]
    · have single : [name].eraseDups = [name] := rfl
      simp [known,ended,List.removeAll,single]

theorem memNamed {gotos : List Goto} {name : String} :
    name ∈ named gotos ↔ name ≠ END ∧ name ∈ gotos.flatMap namesOf := by
  rw [named,Target.distinctNames,List.mem_eraseDups,List.mem_filter]
  simp [and_comm]

theorem collectNames {seen : List String} (start : batch.nextTargets.keys = Target.distinctNames seen)
    (names : List String) :
    (names.foldl collect batch).nextTargets.keys = Target.distinctNames (seen ++ names) ∧
    (names.foldl collect batch).concurrent =
      (batch.concurrent || names.any (fun name => name != END)) ∧
    (names.foldl collect batch).state = batch.state ∧
    (names.foldl collect batch).updatedNormalKeys = batch.updatedNormalKeys ∧
    (names.foldl collect batch).currentNodeNormalKeys = batch.currentNodeNormalKeys := by
  induction names generalizing batch seen with
  | nil => simp [start]
  | cons name rest ih =>
    rw [List.foldl_cons,List.append_cons]
    by_cases ended : name = END
    · have same : collect batch name = batch := by rw [collect,if_pos ended]
      rw [same]
      have first : batch.nextTargets.keys = Target.distinctNames (seen ++ [name]) := by
        rw [distinctSnoc,if_pos (.inl ended)]
        exact start
      obtain ⟨keys,concurrent,others⟩ := ih first
      exact ⟨keys,by rw [concurrent]; simp [ended],others⟩
    · have same : collect batch name =
          {batch with concurrent := true, nextTargets := batch.nextTargets.set name ()} := by
        rw [collect,if_neg ended]
      rw [same]
      have first : (batch.nextTargets.set name ()).keys = Target.distinctNames (seen ++ [name]) := by
        rw [Dict.keysSet,start,distinctSnoc]
        have member : name ∈ Target.distinctNames seen ↔ name ∈ seen := by
          rw [Target.distinctNames,List.mem_eraseDups,List.mem_filter]
          simp [ended]
        simp [member,ended]
      obtain ⟨keys,concurrent,others⟩ :=
        @ih {batch with concurrent := true, nextTargets := batch.nextTargets.set name ()} _ first
      exact ⟨keys,by rw [concurrent]; simp [ended],others⟩

theorem gotoGathers (gathered : Gathered batch gotos) (done : collectGoto batch goto = .ok next) :
    Gathered next (gotos ++ [goto]) ∧ next.state = batch.state ∧
      next.updatedNormalKeys = batch.updatedNormalKeys ∧
      next.currentNodeNormalKeys = batch.currentNodeNormalKeys := by
  have whole : named (gotos ++ [goto]) =
      Target.distinctNames (gotos.flatMap namesOf ++ namesOf goto) := by
    rw [named,List.flatMap_append,List.flatMap_singleton]
  have any : (gotos ++ [goto]).any listed = (gotos.any listed || listed goto) := by
    simp [List.any_append]
  unfold collectGoto at done
  split at done
  · contradiction
  · cases done
    refine ⟨⟨?_,?_⟩,rfl,rfl,rfl⟩
    · rw [whole,show namesOf .none = [] from rfl,List.append_nil]
      exact gathered.names
    · rw [any,gathered.concurrent]
      simp [listed]
  · rename_i names
    cases done
    obtain ⟨keys,concurrent,others⟩ := collectNames gathered.names names
    refine ⟨⟨?_,?_⟩,others⟩
    · rw [whole]
      exact keys
    · rw [any,concurrent,gathered.concurrent]
      rfl
  · rename_i name
    split at done
    · rename_i ended
      cases done
      refine ⟨⟨?_,?_⟩,rfl,rfl,rfl⟩
      · rw [whole,namesOf,distinctSnoc,if_pos (.inl ended)]
        exact gathered.names
      · rw [any,gathered.concurrent]
        simp [listed]
    · rename_i other
      cases done
      refine ⟨⟨?_,?_⟩,rfl,rfl,rfl⟩
      · rw [whole,namesOf,distinctSnoc]
        simp only [Dict.keysSet,gathered.names,memNamed]
        simp only [named,other,ne_eq,not_false_eq_true,true_and,false_or]
      · rw [any]
        simp [listed,gathered.concurrent]

theorem copySame {given copied : Dict String (Update V)}
    (done : copyUpdate values graph given = .ok copied) : copied = given := by
  simp only [copyUpdate,copyState,bindOk,raiseIfOk,exists_const] at done
  cases done.2
  rfl

theorem wroteAppend {first second : List (String × Update V)} {middle : Batch V}
    (left : Wrote values graph prior mine first batch middle)
    (right : Wrote values graph prior (mine ++ first.map Prod.fst) second middle next) :
    Wrote values graph prior mine (first ++ second) batch next := by
  refine ⟨?_,?_,?_⟩
  · intro k member
    rw [List.map_append] at member
    rcases List.mem_append.mp member with early | late
    · exact left.free k early
    · exact right.free k late
  · intro key
    have split : entryUpdates key (first ++ second) = entryUpdates key first ++ entryUpdates key second := by
      simp only [entryUpdates,List.filter_append,List.map_append]
    rw [split,foldedAppend,left.states key]
    exact right.states key
  · rw [List.map_append,← List.append_assoc]
    exact right.tracks

theorem wroteNothing (tracks : Tracks graph batch prior mine) : Wrote values graph prior mine [] batch batch :=
  ⟨nofun,fun _ => rfl,by rw [List.map_nil,List.append_nil]; exact tracks⟩

theorem oneWrites (tracks : Tracks graph batch prior mine) (gathered : Gathered batch gotos)
    (done : applyOne values graph node batch command = .ok next) :
    WellFormed values graph command ∧ Wrote values graph prior mine (entriesOf [command]) batch next ∧
      Gathered next (gotos ++ [command.goto]) := by
  unfold applyOne at done
  split at done
  · contradiction
  · rename_i given update
    simp only [bindOk,leavingOk] at done
    obtain ⟨copied,copying,written,writing,collecting⟩ := done
    cases copySame copying
    obtain ⟨wrote,targets,concurrent⟩ := entriesWrite tracks writing
    have still : Gathered written gotos :=
      ⟨by rw [targets]; exact gathered.names,by rw [concurrent]; exact gathered.concurrent⟩
    obtain ⟨after,state,updated,current⟩ := gotoGathers still collecting
    have entries : entriesOf [command] = given.entries := by simp [entriesOf,update]
    refine ⟨⟨given,update,copying,?_⟩,?_,after⟩
    · intro bad
      rw [bad] at collecting
      contradiction
    · rw [entries]
      refine ⟨wrote.free,by rw [state]; exact wrote.states,⟨?_,?_,wrote.tracks.clean⟩⟩
      · rw [updated]
        exact wrote.tracks.updated
      · rw [current]
        exact wrote.tracks.current

theorem gotoSucceeds (valid : goto ≠ .other) (batch : Batch V) :
    ∃ next, collectGoto batch goto = .ok next := by
  cases goto with
  | none => exact ⟨_,rfl⟩
  | other => exact absurd rfl valid
  | target t =>
    cases t with
    | batch names => exact ⟨_,rfl⟩
    | node name =>
      simp only [collectGoto]
      split <;> exact ⟨_,rfl⟩

theorem oneSucceeds (tracks : Tracks graph batch prior mine) (formed : WellFormed values graph command)
    (free : Free graph prior (keysOf [command]))
    (defined : Defined values graph batch.state (entriesOf [command])) :
    ∃ next, applyOne values graph node batch command = .ok next := by
  obtain ⟨given,update,copying,valid⟩ := formed
  have entries : entriesOf [command] = given.entries := by simp [entriesOf,update]
  rw [entries] at defined
  rw [keysOf,entries] at free
  obtain ⟨written,writing⟩ := @entriesSucceed _ _ _ node _ _ _ _ tracks free defined
  obtain ⟨next,collecting⟩ := gotoSucceeds valid written
  refine ⟨next,?_⟩
  simp only [applyOne,update,copying,writing,collecting,PyError.leavingReturned,bind,Except.bind]

theorem entriesCons (c : Command V) (rest : List (Command V)) :
    entriesOf (c :: rest) = entriesOf [c] ++ entriesOf rest := by simp [entriesOf]

theorem groupWrites (tracks : Tracks graph batch prior mine) (gathered : Gathered batch gotos)
    (done : applyGroup values graph node batch commands = .ok next) :
    (∀ c ∈ commands, WellFormed values graph c) ∧
      Wrote values graph prior mine (entriesOf commands) batch next ∧
      Gathered next (gotos ++ commands.map Command.goto) := by
  induction commands generalizing batch mine gotos with
  | nil =>
    cases done
    exact ⟨nofun,wroteNothing tracks,by rw [List.map_nil,List.append_nil]; exact gathered⟩
  | cons c rest ih =>
    obtain ⟨middle,first,last⟩ := bindOk.mp done
    obtain ⟨formed,wrote,after⟩ := oneWrites tracks gathered first
    obtain ⟨others,more,final⟩ := ih wrote.tracks after last
    refine ⟨?_,?_,?_⟩
    · intro c' member
      rcases List.mem_cons.mp member with rfl | deep
      · exact formed
      · exact others c' deep
    · rw [entriesCons]
      exact wroteAppend wrote more
    · rw [List.map_cons,List.append_cons]
      exact final

theorem definedAppend {first second : List (String × Update V)}
    (defined : Defined values graph state (first ++ second)) :
    Defined values graph state first ∧
    ∀ after : StateDict V, (∀ key, folded values (graph.autoMergeKeys.contains key) (state.get key)
      (entryUpdates key first) = some (after.get key)) → Defined values graph after second := by
  have split : ∀ key, entryUpdates key (first ++ second) = entryUpdates key first ++ entryUpdates key second := by
    intro key
    simp only [entryUpdates,List.filter_append,List.map_append]
  constructor
  · intro key
    have whole := defined key
    rw [split,foldedAppend] at whole
    exact Option.isSome_of_isSome_bind whole
  · intro after reached key
    have whole := defined key
    rw [split,foldedAppend,reached] at whole
    exact whole

theorem groupSucceeds (tracks : Tracks graph batch prior mine) (gathered : Gathered batch gotos)
    (formed : ∀ c ∈ commands, WellFormed values graph c) (free : Free graph prior (keysOf commands))
    (defined : Defined values graph batch.state (entriesOf commands)) :
    ∃ next, applyGroup values graph node batch commands = .ok next := by
  induction commands generalizing batch mine gotos with
  | nil => exact ⟨batch,rfl⟩
  | cons c rest ih =>
    rw [entriesCons] at defined
    have keys : keysOf (c :: rest) = keysOf [c] ++ keysOf rest := by
      rw [keysOf,entriesCons,List.map_append]
      rfl
    rw [keys] at free
    obtain ⟨here,later⟩ := definedAppend defined
    obtain ⟨middle,first⟩ := @oneSucceeds _ _ _ node _ _ _ _ tracks (formed c List.mem_cons_self)
      (fun k member => free k (List.mem_append_left _ member)) here
    obtain ⟨_,wrote,after⟩ := oneWrites tracks gathered first
    obtain ⟨next,last⟩ := ih wrote.tracks after
      (fun c' member => formed c' (List.mem_cons_of_mem _ member))
      (fun k member => free k (List.mem_append_right _ member)) (later middle.state wrote.states)
    exact ⟨next,bindOk.mpr ⟨middle,first,last⟩⟩

section Groups
variable {groups : List (String × List (Command V))}

def commandsOf (groups : List (String × List (Command V))) : List (Command V) :=
  groups.flatMap Prod.snd

/- Two nodes update no common key, unless it is merged. -/
def Apart (graph : Compiled) (a b : String × List (Command V)) : Prop :=
  Free graph (keysOf a.2) (keysOf b.2)

def Seen (graph : Compiled) (batch : Batch V) (prior : List String) : Prop :=
  ∀ k, k ∈ batch.updatedNormalKeys ↔ k ∉ graph.autoMergeKeys ∧ k ∈ prior

theorem seenTracks (seen : Seen graph batch prior) :
    Tracks graph {batch with currentNodeNormalKeys := []} prior [] := by
  refine ⟨?_,?_,nofun⟩
  · intro k
    rw [seen]
    simp
  · intro k
    simp

theorem tracksSeen (tracks : Tracks graph batch prior mine) : Seen graph batch (prior ++ mine) := by
  intro k
  rw [tracks.updated,List.mem_append]

theorem entriesAll (g : String × List (Command V)) (rest : List (String × List (Command V))) :
    entriesOf (commandsOf (g :: rest)) = entriesOf g.2 ++ entriesOf (commandsOf rest) := by
  simp [entriesOf,commandsOf]

theorem freeAppend {first second : List String} :
    Free graph (first ++ second) keys ↔ Free graph first keys ∧ Free graph second keys := by
  constructor
  · intro free
    exact ⟨fun k member => (free k member).imp_right (fun away early => away (List.mem_append_left _ early)),
      fun k member => (free k member).imp_right (fun away late => away (List.mem_append_right _ late))⟩
  · rintro ⟨left,right⟩ k member
    rcases left k member with auto | early
    · exact .inl auto
    · refine (right k member).imp_right ?_
      intro late inside
      rcases List.mem_append.mp inside with old | new
      · exact early old
      · exact late new

theorem groupsWrite (seen : Seen graph batch prior) (gathered : Gathered batch gotos)
    (done : applyGroups values graph batch groups = .ok next) :
    (∀ c ∈ commandsOf groups, WellFormed values graph c) ∧
      (∀ g ∈ groups, Free graph prior (keysOf g.2)) ∧ groups.Pairwise (Apart graph) ∧
      (∀ key, folded values (graph.autoMergeKeys.contains key) (batch.state.get key)
        (entryUpdates key (entriesOf (commandsOf groups))) = some (next.state.get key)) ∧
      Gathered next (gotos ++ (commandsOf groups).map Command.goto) := by
  induction groups generalizing batch prior gotos with
  | nil =>
    cases done
    exact ⟨nofun,nofun,.nil,fun _ => rfl,by
      rw [show commandsOf ([] : List (String × List (Command V))) = [] from rfl,List.map_nil,
        List.append_nil]
      exact gathered⟩
  | cons g rest ih =>
    obtain ⟨name,commands⟩ := g
    simp only [applyGroups,bindOk] at done
    obtain ⟨middle,first,last⟩ := done
    have still : Gathered {batch with currentNodeNormalKeys := []} gotos :=
      ⟨gathered.names,gathered.concurrent⟩
    obtain ⟨formed,wrote,after⟩ := groupWrites (seenTracks seen) still first
    have kept : Seen graph middle (prior ++ keysOf commands) := tracksSeen wrote.tracks
    obtain ⟨others,frees,pairs,states,final⟩ := ih kept after last
    refine ⟨?_,?_,?_,?_,?_⟩
    · intro c member
      rw [commandsOf,List.flatMap_cons] at member
      rcases List.mem_append.mp member with here | later
      · exact formed c here
      · exact others c later
    · intro g' member
      rcases List.mem_cons.mp member with rfl | deep
      · exact wrote.free
      · exact (freeAppend.mp (frees g' deep)).1
    · exact List.pairwise_cons.mpr ⟨fun g' deep => (freeAppend.mp (frees g' deep)).2,pairs⟩
    · intro key
      have split : entryUpdates key (entriesOf (commandsOf ((name,commands) :: rest))) =
          entryUpdates key (entriesOf commands) ++ entryUpdates key (entriesOf (commandsOf rest)) := by
        rw [entriesAll]
        simp only [entryUpdates,List.filter_append,List.map_append]
      rw [split,foldedAppend,wrote.states key]
      exact states key
    · have split : (commandsOf ((name,commands) :: rest)).map Command.goto =
          commands.map Command.goto ++ (commandsOf rest).map Command.goto := by simp [commandsOf]
      rw [split,← List.append_assoc]
      exact final

theorem groupsSucceed (seen : Seen graph batch prior) (gathered : Gathered batch gotos)
    (formed : ∀ c ∈ commandsOf groups, WellFormed values graph c)
    (frees : ∀ g ∈ groups, Free graph prior (keysOf g.2)) (pairs : groups.Pairwise (Apart graph))
    (defined : Defined values graph batch.state (entriesOf (commandsOf groups))) :
    ∃ next, applyGroups values graph batch groups = .ok next := by
  induction groups generalizing batch prior gotos with
  | nil => exact ⟨batch,rfl⟩
  | cons g rest ih =>
    obtain ⟨name,commands⟩ := g
    rw [entriesAll] at defined
    obtain ⟨here,later⟩ := definedAppend defined
    have still : Gathered {batch with currentNodeNormalKeys := []} gotos :=
      ⟨gathered.names,gathered.concurrent⟩
    have mine : ∀ c ∈ commands, WellFormed values graph c := by
      intro c member
      exact formed c (by rw [commandsOf,List.flatMap_cons]; exact List.mem_append_left _ member)
    obtain ⟨middle,first⟩ := @groupSucceeds _ _ _ name _ _ _ _ _ (seenTracks seen) still mine
      (frees (name,commands) List.mem_cons_self) here
    obtain ⟨_,wrote,after⟩ := groupWrites (seenTracks seen) still first
    obtain ⟨apart,others⟩ := List.pairwise_cons.mp pairs
    obtain ⟨next,last⟩ := ih (tracksSeen wrote.tracks) after
      (fun c member => formed c (by rw [commandsOf,List.flatMap_cons]; exact List.mem_append_right _ member))
      (fun g' deep => freeAppend.mpr ⟨frees g' (List.mem_cons_of_mem _ deep),apart g' deep⟩)
      others (later middle.state wrote.states)
    exact ⟨next,bindOk.mpr ⟨middle,first,last⟩⟩

theorem startSeen (state : StateDict V) : Seen graph (.start state) [] := by
  intro k
  simp [Batch.start]

theorem startGathered (state : StateDict V) : Gathered (.start state) [] := ⟨rfl,rfl⟩

theorem nextGathered (gathered : Gathered batch gotos) : nextNode batch = nextOf gotos := by
  unfold nextNode nextOf
  rw [gathered.names,gathered.concurrent]
  cases named gotos with
  | nil => rfl
  | cons name rest =>
    cases rest with
    | nil => cases gotos.any listed <;> rfl
    | cons second more => simp

structure Commit (values : Values V) (graph : Compiled) (state after : StateDict V)
    (groups : List (String × List (Command V))) (target : Target) : Prop where
  formed : ∀ c ∈ commandsOf groups, WellFormed values graph c
  apart : groups.Pairwise (Apart graph)
  states : ∀ key, folded values (graph.autoMergeKeys.contains key) (state.get key)
    (updatesOf key (commandsOf groups)) = some (after.get key)
  target : target = nextOf ((commandsOf groups).map Command.goto)

theorem groupsCommit (done : applyGroups values graph (.start state) groups = .ok next) :
    Commit values graph state next.state groups (nextNode next) := by
  obtain ⟨formed,_,pairs,states,gathered⟩ := groupsWrite (startSeen state) (startGathered state) done
  refine ⟨formed,pairs,?_,nextGathered gathered⟩
  intro key
  rw [← entryUpdatesOf]
  exact states key

/- A batch commits exactly when its commands are well formed, its nodes apart and
all its folds defined. -/
theorem commitsExactly :
    (∃ next, applyGroups values graph (.start state) groups = .ok next) ↔
      (∀ c ∈ commandsOf groups, WellFormed values graph c) ∧ groups.Pairwise (Apart graph) ∧
      ∀ key, (folded values (graph.autoMergeKeys.contains key) (state.get key)
        (updatesOf key (commandsOf groups))).isSome := by
  constructor
  · rintro ⟨next,done⟩
    have commit := groupsCommit done
    exact ⟨commit.formed,commit.apart,fun key => by rw [commit.states key]; rfl⟩
  · rintro ⟨formed,pairs,defined⟩
    refine groupsSucceed (startSeen state) (startGathered state) formed ?_ pairs ?_
    · intro g _ k _
      exact .inr List.not_mem_nil
    · intro key
      rw [entryUpdatesOf]
      exact defined key

end Groups

theorem groupsLength {results : List (Result V)} {groups : List (List (Command V))}
    (done : commandGroups results = .ok groups) : groups.length = results.length := by
  induction results generalizing groups with
  | nil => cases done; rfl
  | cons result rest ih =>
    simp only [commandGroups,bindOk] at done
    obtain ⟨group,_,others,tail,last⟩ := done
    cases last
    rw [List.length_cons,List.length_cons,ih tail]

theorem normalisedLength {results : List (Result V)} {groups : List (List (Command V))}
    (done : normaliseCommandGroups results names = .ok groups) : groups.length = names.length := by
  simp only [normaliseCommandGroups,bindOk,raiseIfOk,exists_const] at done
  rw [groupsLength done.2]
  simpa using done.1

theorem commandsZip {groups : List (List (Command V))} (same : groups.length = names.length) :
    commandsOf (names.zip groups) = groups.flatten := by
  rw [commandsOf,List.flatMap_def,List.map_snd_zip (le_of_eq same)]

/- A target made of known names is one that `_normalise_target` leaves alone. -/
theorem nextNormal {nodes : List String} (known : ∀ name ∈ named gotos, name ∈ nodes) :
    Target.Normal nodes (nextOf gotos) := by
  have twice : Target.distinctNames (named gotos) = named gotos := Target.distinctTwice _
  unfold nextOf
  cases names : named gotos with
  | nil => exact .inl rfl
  | cons name rest =>
    rw [names] at known twice
    cases rest with
    | nil =>
      simp only
      split
      · exact ⟨by simp,twice,known⟩
      · exact .inr (known name List.mem_cons_self)
    | cons second more => exact ⟨by simp,twice,known⟩

theorem foldedNothing (auto : Bool) (current : Option V) (after : Option V)
    (same : folded values auto current [] = some after) : after = current :=
  (Option.some.inj same).symm

theorem batchCommit {g : Nat} {graph : Graph} {results : List (Result V)} {nodeName target : Target}
    {x : GraphContext V} {after : StateDict V}
    (done : applyCommand values g graph results nodeName x = .ok (target,after)) :
    ∃ names groups, Target.normaliseTargets nodeName = .ok names ∧
      normaliseCommandGroups results names = .ok groups ∧
      (∀ key, folded values (graph.autoMergeKeys.contains key) (x.state.get key)
        (updatesOf key groups.flatten) = some (after.get key)) ∧
      (∀ key, updatesOf key groups.flatten = [] → after.get key = x.state.get key) ∧
      target = nextOf (groups.flatten.map Command.goto) ∧
      ((∀ name ∈ named (groups.flatten.map Command.goto), name ∈ graph.nodes) →
        Target.normaliseTarget graph.nodes (.target target) = .ok target) := by
  simp only [applyCommand,commitBatch,bindOk,leavingOk,raiseIfOk,exists_const] at done
  obtain ⟨_,_,_,names,normalised,groups,grouped,last⟩ := done
  split at last
  · rename_i batch applied
    cases last
    have commit := groupsCommit applied
    have same := commandsZip (normalisedLength grouped)
    have states := commit.states
    have next := commit.target
    rw [same] at states next
    refine ⟨names,groups,normalised,grouped,states,?_,next,?_⟩
    · intro key nothing
      have fold := states key
      rw [nothing] at fold
      exact foldedNothing _ _ _ fold
    · intro known
      rw [next]
      exact Target.normaliseStable (nextNormal known)
  · contradiction

/- A list that is merged and a number that is not; `b` updates both, `a` one twice. -/
def totals : Values (List Nat) := ⟨fun _ => true,fun a => some (fun b => .ok (some (a ++ b))),fun _ => "list"⟩

def ledger : Graph := ⟨⟨["a","b","c"],.node "a",true,["log"],[]⟩,9,[],false⟩

def twoNodes : List (Result (List Nat)) :=
  [.commands [some ⟨some ((Dict.empty.set "log" (.value [1])).set "x" (.value [7])),.target (.node "c")⟩,
      some ⟨some (Dict.empty.set "x" (.reset [8])),.none⟩],
    .command ⟨some (Dict.empty.set "log" (.value [2])),.target (.batch ["c",END])⟩]

def ledgerContext : GraphContext (List Nat) :=
  {newContext 0 ledger (Dict.empty.set "log" [0]) with status := .running}

def ledgerAfter : StateDict (List Nat) := ((Dict.empty.set "log" [0]).set "log" [0,1,2]).set "x" [8]

theorem batchCommitLedger :
    ∃ names groups, Target.normaliseTargets (.batch ["a","b"]) = .ok names ∧
      normaliseCommandGroups twoNodes names = .ok groups ∧
      (∀ key, folded totals (ledger.autoMergeKeys.contains key) (ledgerContext.state.get key)
        (updatesOf key groups.flatten) = some (ledgerAfter.get key)) ∧
      (∀ key, updatesOf key groups.flatten = [] → ledgerAfter.get key = ledgerContext.state.get key) ∧
      .batch ["c"] = nextOf (groups.flatten.map Command.goto) ∧
      ((∀ name ∈ named (groups.flatten.map Command.goto), name ∈ ledger.nodes) →
        Target.normaliseTarget ledger.nodes (.target (.batch ["c"])) = .ok (.batch ["c"])) :=
  batchCommit (x := ledgerContext) (g := 0) rfl

end Apixis.CommandFold
