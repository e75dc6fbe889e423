import Apixis.Graph.Moves

/-! `restore_context` on what a context has recorded: whatever a run has done, its
graph accepts every checkpoint again, and restoring at an index takes the history up
to that checkpoint. -/
namespace Apixis.Restoring
open NodeGraph hiding Action step initial
open ApplyCommand Lifecycle Moves Apixis.Runtime
open PyError (bindOk leavingOk raiseIfOk)

variable {V : Type} {values : Values V} {copyable : V → Bool} {w : World V} {s t : State V} {c g k : Nat}
  {a : Action V} {r : List (Action V)} {x y : GraphContext V} {graph : Graph} {version : Int}
  {l : List (Snapshot V)} {snapshot : Snapshot V} {source : Source V}

/- What graph `g` asks of a checkpoint. -/
structure Acceptable (copyable : V → Bool) (g : Nat) (snapshot : Snapshot V) : Prop where
  mine : snapshot.graphId = g
  counted : 0 ≤ snapshot.steps
  copied : copyState copyable [] snapshot.state = .ok snapshot.state

structure Stored (copyable : V → Bool) (x : GraphContext V) : Prop where
  counted : 0 ≤ x.steps
  history : ∀ snapshot ∈ x.contextSnapshot, Acceptable copyable x.graphId snapshot

theorem moveStored (stored : Stored values.copyable x) (move : Move values s c x a y) :
    Stored values.copyable y := by
  cases move with
  | same => exact stored
  | bound owner live mine pending valid => exact ⟨stored.counted,stored.history⟩
  | ended permitted cause => exact ⟨stored.counted,stored.history⟩
  | interrupted found about completion => exact ⟨stored.counted,stored.history⟩
  | targeted found about stage owner running valid => exact ⟨stored.counted,stored.history⟩
  | began found context calling idle owner running more begun =>
    rcases (executeNodeOk begun).2 with ⟨_,rfl⟩ | ⟨_,_,state,copied,rfl⟩
    · exact stored
    · refine ⟨stored.counted,?_⟩
      intro snapshot member
      rcases List.mem_append.mp member with old | new
      · exact stored.history snapshot old
      · cases List.mem_singleton.mp new
        cases copyStateOk copied
        exact ⟨rfl,stored.counted,copied⟩
  | committed found context work owner running returned applied valid =>
    exact ⟨Int.le_add_one stored.counted,stored.history⟩
  | refused found context work owner running returned applied => exact ⟨stored.counted,stored.history⟩
  | overrun found context work owner running returned applied invalid =>
    exact ⟨Int.le_add_one stored.counted,stored.history⟩

theorem copiedAll {u : Unit} (copied : copyAll copyable l = .ok u) :
    ∀ snapshot ∈ l, copyState copyable [] snapshot.state = .ok snapshot.state := by
  induction l with
  | nil => exact fun _ member => absurd member List.not_mem_nil
  | cons head tail ih =>
    obtain ⟨state,first,rest⟩ := bindOk.mp copied
    intro snapshot member
    rcases List.mem_cons.mp member with rfl | later
    · cases copyStateOk first
      exact first
    · exact ih rest snapshot later

theorem bornStored (ready : Ready s) (taken : Runtime.Step values s a t)
    (missing : s.world.contexts[c]? = none) (there : t.world.contexts[c]? = some y) :
    Stored values.copyable y := by
  cases (stepMoves ready taken).born c y there missing with
  | created owner copied => exact ⟨Int.le_refl 0,fun _ member => absurd member List.not_mem_nil⟩
  | invoked owner live copied valid => exact ⟨Int.le_refl 0,fun _ member => absurd member List.not_mem_nil⟩
  | restored owner sourced valid latest =>
    rename_i g source version graph raw history restored
    cases taken with
    | accepted open_ performed =>
      obtain ⟨graph',owner',last⟩ := Option.bind_eq_some_iff.mp performed
      obtain ⟨raw',history',_,_,sourced',valid',copied,_,_⟩ := restoreOk (Option.some.inj last)
      cases sourced.symm.trans sourced'
      cases valid.symm.trans valid'
      have accepted : ∀ snapshot ∈ history, Acceptable values.copyable g snapshot := by
        intro snapshot member
        obtain ⟨mine,counted⟩ := validatedAll valid snapshot member
        exact ⟨mine,counted,copiedAll copied snapshot member⟩
      exact ⟨(accepted restored (List.mem_of_getLast? latest)).counted,accepted⟩
    | rejected open_ performed =>
      obtain ⟨_,same⟩ := soundPerform ready.managed performed
      rw [same,missing] at there
      contradiction
    | task found moved => cases moved
    | invocation found moved => cases moved

theorem runStored {m : Nat}
    (ran : Machine.run (Runtime.step values) (Runtime.initial m) r = some s) :
    ∀ (c : Nat) x, s.world.contexts[c]? = some x → Stored values.copyable x := by
  refine Machine.history (P := fun _ s => ∀ (c : Nat) x, s.world.contexts[c]? = some x →
    Stored values.copyable x) ?_ ?_ ran
  · intro c x found
    simp [Runtime.initial,NodeGraph.initial] at found
  · intro r s a t before stored taken c y there
    have ready := runReady before
    have steps := Runtime.stepCases taken
    cases found : s.world.contexts[c]? with
    | none => exact bornStored ready steps found there
    | some x =>
      obtain ⟨z,same,move⟩ := (stepMoves ready steps).moves c x found
      cases Option.some.inj (there.symm.trans same)
      exact moveStored (stored c x found) move

theorem indexCases {n : Nat} (selected : indexAt n version = some k) : k < n ∧ sliceEnd n version = k := by
  by_cases negative : version < 0
  · simp only [indexAt,negative,if_true,Option.ite_none_right_eq_some,Option.some.injEq] at selected
    simp only [sliceEnd,negative,if_true]
    omega
  · simp only [indexAt,negative,if_false,Option.ite_none_right_eq_some,Option.some.injEq] at selected
    simp only [sliceEnd,negative,if_false]
    omega

theorem selectPrefix {l : List (Option (RawSnapshot V))} (selected : indexAt l.length version = some k) :
    selectHistory l version = .ok (l.take (k + 1)) := by
  obtain ⟨inside,slice⟩ := indexCases selected
  have some_ : l.isEmpty = false := by
    cases l with
    | nil => cases inside
    | cons head tail => rfl
  simp only [selectHistory,some_,PyError.raiseIf,selected,Option.bind_some,List.getElem?_eq_getElem inside,
    slice,List.take_append_getElem]
  rfl

theorem validateRaw (acceptable : Acceptable copyable g snapshot) :
    validateSnapshot g (some snapshot.raw) = .ok snapshot := by
  obtain ⟨mine,counted,_⟩ := acceptable
  subst mine
  have target : rawTarget (Target.raw snapshot.targetNodeName : Raw V) = .ok snapshot.targetNodeName := by
    cases snapshot.targetNodeName <;> rfl
  have steps : rawSteps (.int snapshot.steps : Raw V) = .ok snapshot.steps := by
    simp only [rawSteps,bindOk,raiseIfOk,exists_const]
    exact ⟨decide_eq_false (not_lt.mpr counted),rfl⟩
  have owner : rawGraphId snapshot.graphId (.graphId snapshot.graphId : Raw V) = .ok snapshot.graphId := by
    simp only [rawGraphId,bindOk,raiseIfOk,exists_const]
    exact ⟨bne_self_eq_false _,rfl⟩
  simp only [validateSnapshot,Snapshot.raw,owner,rawState,target,steps,rawTimestamp]
  rfl

theorem validateAllRaw (acceptable : ∀ snapshot ∈ l, Acceptable copyable g snapshot) :
    validateAll g (l.map (fun snapshot => some snapshot.raw)) = .ok l := by
  induction l with
  | nil => rfl
  | cons head tail ih =>
    have first := validateRaw (acceptable head List.mem_cons_self)
    have rest := ih (fun snapshot member => acceptable snapshot (List.mem_cons_of_mem head member))
    simp only [List.map_cons,validateAll,first,rest]
    rfl

theorem copyAllOk (acceptable : ∀ snapshot ∈ l, Acceptable copyable g snapshot) :
    copyAll copyable l = .ok () := by
  induction l with
  | nil => rfl
  | cons head tail ih =>
    have first := (acceptable head List.mem_cons_self).copied
    have rest := ih (fun snapshot member => acceptable snapshot (List.mem_cons_of_mem head member))
    simp only [copyAll,first,rest]
    rfl

def Offers (c : Nat) (x : GraphContext V) (source : Source V) : Prop :=
  source = .context c ∨ source = .snapshots (x.contextSnapshot.map (fun snapshot => some snapshot.raw))

theorem restoreAccepted (stored : Stored copyable x) (found : w.contexts[c]? = some x)
    (live : graph.decomposed = false) (offers : Offers c x source)
    (selected : indexAt x.contextSnapshot.length version = some k) :
    ∃ snapshot, x.contextSnapshot[k]? = some snapshot ∧
      restoreContext copyable w x.graphId graph source version = .ok {w with
        contexts := w.contexts ++ [restoredContext x.graphId (x.contextSnapshot.take (k + 1)) snapshot]} := by
  obtain ⟨inside,_⟩ := indexCases selected
  have there : x.contextSnapshot[k]? = some x.contextSnapshot[k] := List.getElem?_eq_getElem inside
  refine ⟨x.contextSnapshot[k],there,?_⟩
  have acceptable : ∀ snapshot ∈ x.contextSnapshot.take (k + 1), Acceptable copyable x.graphId snapshot :=
    fun snapshot member => stored.history snapshot (List.mem_of_mem_take member)
  have sourced : sourceHistory w x.graphId version source =
      .ok ((x.contextSnapshot.take (k + 1)).map (fun snapshot => some snapshot.raw)) := by
    have chosen := selectPrefix (l := x.contextSnapshot.map (fun snapshot => some snapshot.raw))
      (by rw [List.length_map]; exact selected)
    rw [← List.map_take] at chosen
    rcases offers with rfl | rfl
    · simp only [sourceHistory,found,bne_self_eq_false]
      exact chosen
    · exact chosen
  have latest : (x.contextSnapshot.take (k + 1)).getLast? = some x.contextSnapshot[k] := by
    rw [← List.take_append_getElem inside,List.getLast?_concat]
  simp only [restoreContext,ensureNotDecomposed,live,PyError.raiseIf,Bool.false_eq_true,if_false,
    PyError.leavingReturned,bind,Except.bind,sourced,validateAllRaw acceptable,copyAllOk acceptable,latest]
  rfl

end Apixis.Restoring
