import Apixis.Event.PermitLedger

/-! Foreground code and its permit. A chain may run handler code with no branch
suspended only while it holds a permit; an exit of `suspend_process` that is
interrupted while it waits is the one place where the code lets go of this. -/
namespace Apixis.Ownership
open ChainToken PermitLedger

/- Between its decrement of `suspended` and the end of its exit. -/
def Exiting (f : Frame) : Prop := f.pc = .lockWait ∨ f.pc = .permitWait ∨ f.pc = .granted
instance (f : Frame) : Decidable (Exiting f) := by unfold Exiting; infer_instance

def inBody (c : Nat) (f : Frame) : Bool := f.chain == c && f.pc == .body
def exits (c : Nat) (f : Frame) : Bool := f.chain == c && decide (Exiting f)

def NoExit (s : State) (c : Nat) : Prop := ∀ f ∈ s.frames, exits c f = false
instance (s : State) (c : Nat) : Decidable (NoExit s c) := by unfold NoExit; infer_instance

/- Open, no branch suspended and no task on its way back into the chain. -/
def Foreground (s : State) (c : Nat) (chain : Chain) : Prop :=
  chain.token.closed = false ∧ chain.token.suspended = 0 ∧ NoExit s c
instance (s : State) (c : Nat) (chain : Chain) : Decidable (Foreground s c chain) := by
  unfold Foreground; infer_instance

def Owned (s : State) : Prop :=
  ∀ (c : Nat) (chain : Chain), s.chains[c]? = some chain → Foreground s c chain →
    chain.token.held = true

def foregroundChains (s : State) : Nat :=
  s.chains.zipIdx.countP (fun x => decide (Foreground s x.2 x.1))

/- What is promised of every state: ownership, and with it the capacity. -/
def Permitted (capacity : Nat) (s : State) : Prop := Owned s ∧ foregroundChains s ≤ capacity

def OthersIn (s : State) (f c : Nat) : Prop :=
  ∀ (g : Nat) (other : Frame), s.frames[g]? = some other → g ≠ f → exits c other = false

/- The wait at `f` is the last one of an open chain that no branch suspends any
more and that has not got its permit back. -/
def Forfeits (s : State) (f : Nat) : Prop :=
  ∃ frame chain, s.frames[f]? = some frame ∧ s.chains[frame.chain]? = some chain ∧
    chain.token.closed = false ∧ chain.token.suspended = 0 ∧ chain.token.held = false ∧
    OthersIn s f frame.chain

/- No cancellation and no timeout reaches a wait that would be forfeited by it. -/
def Kept (s : State) : Action → Prop
  | .interrupt f => ¬Forfeits s f
  | _ => True

/- The counter `suspended` of each chain is the number of its suspensions in their body. -/
def Counted (s : State) : Prop :=
  ∀ (c : Nat) (chain : Chain), s.chains[c]? = some chain →
    chain.token.suspended = s.frames.countP (inBody c)

def Known (capacity : Nat) (s : State) : Prop := Ledger capacity s ∧ Counted s

variable {capacity c f i : Nat} {s t : State} {a : Action} {chain next : Chain} {frame : Frame}
  {pc : FramePc}

theorem initialKnown (capacity : Nat) : Known capacity (initial capacity) :=
  ⟨initialLedger capacity,by intro c chain found; simp [initial] at found⟩

theorem initialPermitted (capacity : Nat) : Permitted capacity (initial capacity) := by
  constructor
  · intro c chain found
    simp [initial] at found
  · simp [foregroundChains,initial]

/- Ownership bounds the chains in the foreground by the held tokens. -/
theorem ownedBound (ledger : Ledger capacity s) (own : Owned s) : foregroundChains s ≤ capacity := by
  have heldCount : heldTokens s = s.chains.zipIdx.countP (fun x => held x.1) := by
    rw [heldTokens]
    conv => lhs; rw [← List.zipIdx_map_fst 0 s.chains]
    rw [List.countP_map]
    rfl
  have below : foregroundChains s ≤ heldTokens s := by
    rw [heldCount]
    refine List.countP_mono_left ?_
    intro x member front
    have place := List.mem_zipIdx_iff_getElem?.mp member
    exact own x.2 x.1 place (of_decide_eq_true front)
  have total := ledger.total
  omega

theorem noExitSplit (place : s.frames[f]? = some frame) :
    NoExit s c ↔ OthersIn s f c ∧ exits c frame = false := by
  constructor
  · intro none_
    exact ⟨fun g other found _ => none_ other (List.mem_of_getElem? found),
      none_ frame (List.mem_of_getElem? place)⟩
  · rintro ⟨others,mine⟩ x member
    obtain ⟨g,found⟩ := List.getElem?_of_mem member
    by_cases same : g = f
    · subst same
      cases Option.some.inj (place.symm.trans found)
      exact mine
    · exact others g x found same

theorem noExitSet (place : s.frames[f]? = some frame) (after : Frame)
    (frames : t.frames = s.frames.set f after) :
    NoExit t c ↔ OthersIn s f c ∧ exits c after = false := by
  have now : t.frames[f]? = some after := by rw [frames,Slots.setSame place]
  rw [noExitSplit now]
  have same : OthersIn t f c ↔ OthersIn s f c := by
    constructor
    · intro others g other found different
      refine others g other ?_ different
      rw [frames,Slots.setOther (Ne.symm different)]
      exact found
    · intro others g other found different
      rw [frames,Slots.setOther (Ne.symm different)] at found
      exact others g other found different
  rw [same]

theorem noExitOther (place : s.frames[f]? = some frame) (after : Frame)
    (frames : t.frames = s.frames.set f after) (same : after.chain = frame.chain)
    (different : c ≠ frame.chain) : NoExit t c ↔ NoExit s c := by
  rw [noExitSet place after frames,noExitSplit place]
  have before : exits c frame = false := by simp [exits,Ne.symm different]
  have now : exits c after = false := by simp [exits,same,Ne.symm different]
  rw [before,now]

theorem noExitAppend (frames : t.frames = s.frames ++ [frame]) (away : exits c frame = false) :
    NoExit t c ↔ NoExit s c := by
  unfold NoExit
  rw [frames]
  constructor
  · intro none_ x member
    exact none_ x (List.mem_append_left _ member)
  · intro none_ x member
    rcases List.mem_append.mp member with old | new
    · exact none_ x old
    · rw [List.mem_singleton.mp new]; exact away

theorem ownedLocal (own : Owned s)
    (chains : ∀ c, c ≠ i → t.chains[c]? = s.chains[c]?)
    (exits_ : ∀ c, c ≠ i → (NoExit t c ↔ NoExit s c))
    (mine : ∀ chain, t.chains[i]? = some chain → Foreground t i chain → chain.token.held = true) :
    Owned t := by
  intro c chain found front
  by_cases same : c = i
  · subst same; exact mine chain found front
  · rw [chains c same] at found
    exact own c chain found ⟨front.1,front.2.1,(exits_ c same).mp front.2.2⟩

theorem countedSame (counted : Counted s) (chains : t.chains = s.chains)
    (frames : t.frames = s.frames) : Counted t := by
  intro c chain found
  rw [chains] at found
  rw [frames]
  exact counted c chain found

theorem countedAt (counted : Counted s) (chains : t.chains = s.chains.set i next)
    (others : ∀ c, c ≠ i → t.frames.countP (inBody c) = s.frames.countP (inBody c))
    (mine : next.token.suspended = t.frames.countP (inBody i)) : Counted t := by
  intro c x inside
  rw [chains] at inside
  rcases Slots.setCases inside with ⟨rfl,rfl⟩ | ⟨different,old⟩
  · exact mine
  · rw [others c (Ne.symm different)]
    exact counted c x old

theorem countedKept (counted : Counted s) (found : s.chains[i]? = some chain)
    (chains : t.chains = s.chains.set i next) (same : next.token.suspended = chain.token.suspended)
    (frames : ∀ c, t.frames.countP (inBody c) = s.frames.countP (inBody c)) : Counted t :=
  countedAt counted chains (fun c _ => frames c)
    (same.trans ((counted i chain found).trans (by rw [frames i])))

theorem countedFree (counted : Counted s) (chains : t.chains = s.chains)
    (frames : ∀ c, t.frames.countP (inBody c) = s.frames.countP (inBody c)) : Counted t := by
  intro c chain found
  rw [chains] at found
  rw [frames c]
  exact counted c chain found

theorem bodiesSame (place : s.frames[f]? = some frame) (outside : frame.pc ≠ .body)
    (leaves : pc ≠ .body) (c : Nat) :
    (s.frames.set f {frame with pc := pc}).countP (inBody c) = s.frames.countP (inBody c) := by
  have before : (frame.pc == .body) = false := beq_eq_false_iff_ne.mpr outside
  have after : (pc == .body) = false := beq_eq_false_iff_ne.mpr leaves
  exact Slots.countSetSame (inBody c) place (by simp [inBody,before,after])

theorem releaseChains (s : State) : s.release.chains = s.chains := by
  unfold State.release; split <;> rfl

theorem releaseFrames (s : State) : s.release.frames = s.frames := by
  unfold State.release; split <;> rfl

theorem closeFrames (s : State) (c : Nat) (chain : Chain) (phase : Phase) :
    (s.close c chain phase).frames = s.frames := by
  unfold State.close; split <;> simp [releaseFrames]

theorem closeChains (s : State) (c : Nat) (chain : Chain) (phase : Phase) :
    (s.close c chain phase).chains = s.chains.set c {chain with
      token := {chain.token with closed := true, held := false}, phase := phase} := rfl

theorem enterFrames (s : State) (u c : Nat) (chain : Chain) :
    (s.enter u c chain).frames = s.frames ++ [⟨u,c,.body⟩] := rfl

theorem releasedChains (s : State) (c f : Nat) (chain : Chain) (token : HandlerChainToken)
    (frame : Frame) (pc : FramePc) :
    ((s.release.setToken c chain token).setFrame f frame pc).chains =
      s.chains.set c {chain with token := token} := by
  simp only [State.setFrame,State.setToken,releaseChains]

theorem releasedFrames (s : State) (c f : Nat) (chain : Chain) (token : HandlerChainToken)
    (frame : Frame) (pc : FramePc) :
    ((s.release.setToken c chain token).setFrame f frame pc).frames =
      s.frames.set f {frame with pc := pc} := by
  simp only [State.setFrame,State.setToken,releaseFrames]

theorem enterCounted (counted : Counted s) (found : s.chains[i]? = some chain) (u : Nat) :
    Counted (s.enter u i chain) := by
  refine countedAt counted (t := s.enter u i chain) (i := i) rfl ?_ ?_
  · intro c different
    rw [enterFrames,Slots.countAppend]
    simp [inBody,Ne.symm different]
  · rw [enterFrames,Slots.countAppend]
    have now := counted i chain found
    simp only [inBody,beq_self_eq_true,Bool.and_self,if_true]
    omega

theorem leaveBodyCounted (counted : Counted s) (place : s.frames[f]? = some frame)
    (found : s.chains[frame.chain]? = some chain) (body : frame.pc = .body) :
    Counted (s.leaveBody f frame chain) := by
  let pc : FramePc := if chain.token.suspended - 1 = 0 then .lockWait else .left
  have away : (pc == .body) = false := by
    simp only [pc]; split <;> rfl
  refine countedAt counted (t := s.leaveBody f frame chain) (i := frame.chain) rfl ?_ ?_
  · intro c different
    have foreign : (frame.chain == c) = false := beq_eq_false_iff_ne.mpr (Ne.symm different)
    exact Slots.countSetSame (inBody c) place (by simp only [inBody,foreign,Bool.false_and])
  · have moved := Slots.countSet (y := {frame with pc := pc}) (inBody frame.chain) place
    have inside : inBody frame.chain frame = true := by simp [inBody,body]
    have outside : inBody frame.chain {frame with pc := pc} = false := by simp [inBody,away]
    have now := counted frame.chain chain found
    rw [inside,outside] at moved
    simp only [if_true,Bool.false_eq_true,if_false] at moved
    show chain.token.suspended - 1 = ((s.frames.set f {frame with pc := pc}).countP
      (inBody frame.chain) : Int)
    omega

theorem stepCounted (ledger : Ledger capacity s) (counted : Counted s)
    (taken : step s a = some t) : Counted t := by
  have created : ∀ next : Chain, next.token.suspended = 0 →
      Counted {s with chains := s.chains ++ [next]} := by
    intro next zero c x inside
    rcases Slots.appendCases inside with ⟨rfl,rfl⟩ | old
    · have nobody : s.frames.countP (inBody s.chains.length) = 0 := by
        refine List.countP_eq_zero.mpr ?_
        intro x member inside
        have bound := ledger.valid x member
        simp only [inBody,Bool.and_eq_true,beq_iff_eq] at inside
        omega
      simp [nobody,zero]
    · exact counted c x old
  cases stepCases taken with
  | request => exact countedSame counted rfl rfl
  | grantConsumer waiting free => exact countedSame counted rfl rfl
  | dropConsumer waiting => exact countedSame counted rfl rfl
  | returnConsumer granted => exact countedSame counted rfl rfl
  | launch granted => exact countedSame (created ⟨newToken,some s.tasks.length,.running⟩ rfl) rfl rfl
  | launchFailed granted =>
    refine countedKept (created ⟨newToken,none,.running⟩ rfl) Slots.appendNew
      (t := s.launchFailed _) rfl rfl ?_
    intro c
    simp [State.launchFailed,closeFrames]
  | spawn task => exact countedSame counted rfl rfl
  | detached => exact countedSame counted rfl rfl
  | pass => exact counted
  | enter inherited found opened => exact enterCounted counted found _
  | leaveBody place found pc => exact leaveBodyCounted counted place found pc
  | lock place found pc unlocked =>
    have outside : ∀ pc' : FramePc, pc' ≠ .body → ∀ c, _ := fun pc' away =>
      bodiesSame place (by simp [pc]) away
    unfold State.lock
    split
    · exact countedKept counted found rfl rfl (outside .permitWait (by simp))
    · exact countedFree counted rfl (outside .left (by simp))
  | grantFrame place pc free =>
    exact countedFree counted rfl (bodiesSame place (by simp [pc]) (by simp))
  | resume place found pc =>
    have away : FramePc.left ≠ .body := by simp
    have outside := bodiesSame place (by simp [pc]) away
    unfold State.resume
    split
    · refine countedKept counted found (releasedChains _ _ _ _ _ _ _) rfl ?_
      intro c
      rw [releasedFrames]
      exact outside c
    · exact countedKept counted found rfl rfl outside
  | interrupt place found pc =>
    have gone : FramePc.left ≠ .body := by simp
    have away := bodiesSame place (by rcases pc with h | h | h <;> simp [h]) gone
    rcases pc with pc | pc | pc <;> simp only [State.interrupt,pc]
    · exact countedFree counted rfl away
    · exact countedKept counted found rfl rfl away
    · exact countedKept counted found rfl rfl away
  | finish found phase => exact countedKept counted found rfl rfl (fun _ => rfl)
  | onDispatchDone found phase =>
    exact countedKept counted found (closeChains _ _ _ _) rfl (by simp [closeFrames])

theorem stepKnown (known : Known capacity s) (taken : step s a = some t) : Known capacity t :=
  ⟨stepLedger known.1 taken,stepCounted known.1 known.2 taken⟩

theorem ownedSame (own : Owned s) (chains : t.chains = s.chains) (frames : t.frames = s.frames) :
    Owned t := by
  intro c chain found front
  rw [chains] at found
  exact own c chain found ⟨front.1,front.2.1,fun x member => front.2.2 x (frames ▸ member)⟩

theorem ownedChain (own : Owned s) (chains : t.chains = s.chains.set i next)
    (frames : t.frames = s.frames)
    (mine : Foreground t i next → next.token.held = true) : Owned t := by
  refine ownedLocal (i := i) own ?_ ?_ ?_
  · intro c different
    rw [chains,Slots.setOther (Ne.symm different)]
  · intro c _
    unfold NoExit
    rw [frames]
  · intro chain found front
    rw [chains] at found
    rcases Slots.setCases found with ⟨_,rfl⟩ | ⟨different,_⟩
    · exact mine front
    · exact absurd rfl different

theorem ownedFrame (own : Owned s) (place : s.frames[f]? = some frame)
    (found : s.chains[frame.chain]? = some chain)
    (frames : t.frames = s.frames.set f {frame with pc := pc})
    (chains : t.chains = s.chains.set frame.chain next)
    (mine : Foreground t frame.chain next → next.token.held = true) : Owned t := by
  refine ownedLocal (i := frame.chain) own ?_ ?_ ?_
  · intro c different
    rw [chains,Slots.setOther (Ne.symm different)]
  · intro c different
    exact noExitOther place {frame with pc := pc} frames rfl different
  · intro x inside front
    rw [chains,Slots.setSame found] at inside
    cases Option.some.inj inside
    exact mine front

/- As long as a suspension is on its way back, its chain is not in the foreground. -/
theorem exitingHides (frames : t.frames = s.frames.set f {frame with pc := pc})
    (place : s.frames[f]? = some frame) (waits : Exiting {frame with pc := pc})
    (front : Foreground t frame.chain chain) : False := by
  have away := ((noExitSet place {frame with pc := pc} frames).mp front.2.2).2
  simp [exits,waits] at away

theorem createdOwned (own : Owned s) (chains : t.chains = s.chains ++ [next])
    (frames : t.frames = s.frames)
    (good : next.token.closed = false → next.token.held = true) : Owned t := by
  intro c chain found front
  rw [chains] at found
  rcases Slots.appendCases found with ⟨_,rfl⟩ | old
  · exact good front.1
  · exact own c chain old ⟨front.1,front.2.1,fun x member => front.2.2 x (frames ▸ member)⟩

theorem lockOwned (own : Owned s) (place : s.frames[f]? = some frame)
    (found : s.chains[frame.chain]? = some chain) : Owned (s.lock f frame chain) := by
  unfold State.lock
  split
  · exact ownedFrame own place found rfl rfl
      (fun front => (exitingHides rfl place (.inr (.inl rfl)) front).elim)
  · rename_i stays
    have same := (Slots.setEqual found).symm
    refine ownedFrame own place found rfl same ?_
    intro front
    simp only [HandlerChainToken.wants,Bool.and_eq_true,Bool.not_eq_true',decide_eq_true_eq,
      not_and] at stays
    cases held : chain.token.held with
    | true => rfl
    | false => exact absurd front.2.1 (stays ⟨front.1,held⟩)

theorem resumeOwned (own : Owned s) (place : s.frames[f]? = some frame)
    (found : s.chains[frame.chain]? = some chain) : Owned (s.resume f frame chain) := by
  unfold State.resume
  split
  · rename_i back
    refine ownedFrame own place found (releasedFrames _ _ _ _ _ _ _) (releasedChains _ _ _ _ _ _ _) ?_
    intro front
    have opened : chain.token.closed = false := front.1
    have none_ : chain.token.suspended = 0 := front.2.1
    simp [opened,none_] at back
  · exact ownedFrame own place found rfl rfl (fun _ => rfl)

/- A suspension that leaves its exit without the permit lets its chain into the
foreground exactly when no other one is left. -/
theorem interruptOwned (own : Owned s) (place : s.frames[f]? = some frame)
    (found : s.chains[frame.chain]? = some chain) (waits : Exiting frame) :
    Owned (s.interrupt f frame chain) ↔ ¬Forfeits s f := by
  have shape : ∃ lock : Option Nat,
      (s.interrupt f frame chain).frames = s.frames.set f {frame with pc := .left} ∧
      (s.interrupt f frame chain).chains = s.chains.set frame.chain
        {chain with token := {chain.token with resumeLock := lock}} := by
    rcases waits with pc | pc | pc <;> simp only [State.interrupt,pc]
    · exact ⟨chain.token.resumeLock,rfl,(Slots.setEqual found).symm⟩
    · exact ⟨none,rfl,rfl⟩
    · exact ⟨none,rfl,rfl⟩
  obtain ⟨lock,frames,chains⟩ := shape
  have gone : exits frame.chain {frame with pc := .left} = false := by simp [exits,Exiting]
  have others := noExitSet (c := frame.chain) place _ frames
  constructor
  · rintro after ⟨frame',chain',place',found',opened,suspended,without,alone⟩
    cases Option.some.inj (place.symm.trans place')
    cases Option.some.inj (found.symm.trans found')
    have now := Slots.setSame (y := {chain with token := {chain.token with resumeLock := lock}}) found
    rw [← chains] at now
    have own' := after _ _ now ⟨opened,suspended,others.mpr ⟨alone,gone⟩⟩
    simp [without] at own'
  · intro keeps
    refine ownedFrame own place found frames chains ?_
    intro front
    cases held : chain.token.held with
    | true => rfl
    | false =>
      have alone := (others.mp front.2.2).1
      exact absurd ⟨frame,chain,place,found,front.1,front.2.1,held,alone⟩ keeps

theorem stepOwned (known : Known capacity s) (own : Owned s) (taken : step s a = some t) :
    Owned t ↔ Kept s a := by
  have counted := known.2
  have always : Owned t → (Owned t ↔ True) := fun h => ⟨fun _ => trivial,fun _ => h⟩
  cases stepCases taken with
  | request => exact always (ownedSame own rfl rfl)
  | grantConsumer waiting free => exact always (ownedSame own rfl rfl)
  | dropConsumer waiting => exact always (ownedSame own rfl rfl)
  | returnConsumer granted => exact always (ownedSame own rfl rfl)
  | launch granted =>
    exact always (createdOwned own rfl rfl (fun _ => rfl))
  | @launchFailed i granted =>
    let created : State := {s with
      consumers := s.consumers.set i .past, chains := s.chains ++ [⟨newToken,none,.running⟩]}
    have own' : Owned created := createdOwned own rfl rfl (fun _ => rfl)
    refine always (ownedChain own' (closeChains _ _ _ _) (closeFrames _ _ _ _) ?_)
    intro front
    exact absurd front.1 (by simp)
  | spawn task => exact always (ownedSame own rfl rfl)
  | detached => exact always (ownedSame own rfl rfl)
  | pass => exact always own
  | @enter u c chain inherited found opened =>
    have nonneg := counted c chain found
    refine always (ownedLocal (i := c) own ?_ ?_ ?_)
    · intro d different
      exact Slots.setOther (Ne.symm different)
    · intro d different
      exact noExitAppend (enterFrames s u c chain) (by simp [exits,Exiting])
    · intro x inside front
      have now : (s.enter u c chain).chains = s.chains.set c _ := rfl
      rw [now,Slots.setSame found] at inside
      cases Option.some.inj inside
      have zero : chain.token.suspended + 1 = 0 := front.2.1
      omega
  | @leaveBody f frame chain place found pc =>
    refine always (ownedFrame own place found rfl rfl ?_)
    intro front
    have zero : chain.token.suspended - 1 = 0 := front.2.1
    refine (exitingHides rfl place ?_ front).elim
    rw [if_pos zero]
    exact .inl rfl
  | lock place found pc unlocked => exact always (lockOwned own place found)
  | @grantFrame f frame place pc free =>
    have bound := known.1.valid frame (List.mem_of_getElem? place)
    have found := List.getElem?_eq_getElem bound
    exact always (ownedFrame own place found rfl (Slots.setEqual found).symm
      (fun front => (exitingHides rfl place (.inr (.inr rfl)) front).elim))
  | resume place found pc => exact always (resumeOwned own place found)
  | interrupt place found pc => exact interruptOwned own place found pc
  | @finish c chain found phase =>
    refine always (ownedChain own rfl rfl ?_)
    intro front
    exact own c chain found front
  | onDispatchDone found phase =>
    refine always (ownedChain own (closeChains _ _ _ _) (closeFrames _ _ _ _) ?_)
    intro front
    exact absurd front.1 (by simp)

theorem stepPermitted (known : Known capacity s) (permitted : Permitted capacity s)
    (taken : step s a = some t) : Permitted capacity t ↔ Kept s a := by
  have exact_ := stepOwned known permitted.1 taken
  constructor
  · intro after
    exact exact_.mp after.1
  · intro kept
    have own := exact_.mpr kept
    exact ⟨own,ownedBound (stepKnown known taken).1 own⟩

/- A run stays within its permits exactly when no interruption forfeits one. -/
theorem foregroundPermitted {r : List Action} (ran : Machine.run step (initial capacity) r = some s) :
    Machine.Along step (Permitted capacity) (initial capacity) r ↔
      Machine.Steps step Kept (initial capacity) r :=
  Machine.alongIffSteps (fun _ _ _ => stepKnown) (fun _ _ _ => stepPermitted)
    (initialKnown capacity) (initialPermitted capacity) ran

/- Capacity one. The handler of dispatch 0 posts an event that waits for it, so
its permit goes to dispatch 1; a timeout then reaches it while it waits to get the
permit back, and dispatch 0 runs its next handler without one. -/
def timedOut : List Action :=
  [.request,.grantConsumer 0,.launch 0 true,.enter 0,.request,.grantConsumer 1,.launch 1 true,
    .leaveBody 0,.lock 0,.interrupt 0]

def unpaid : State :=
  ⟨⟨0,1⟩,[⟨⟨false,false,0,none⟩,some 0,.running⟩,⟨⟨true,false,0,none⟩,some 1,.running⟩],
    [⟨some 0⟩,⟨some 1⟩],[⟨0,0,.left⟩],[.past,.past],false⟩

theorem foregroundPermittedTimedOut :
    Machine.Along step (Permitted 1) (initial 1) timedOut ↔
      Machine.Steps step Kept (initial 1) timedOut :=
  foregroundPermitted (s := unpaid) (by decide)

theorem foregroundWithoutPermit :
    (¬∀ capacity as s, Machine.run step (initial capacity) as = some s → Owned s) ∧
    ¬∀ capacity as s, Machine.run step (initial capacity) as = some s →
      foregroundChains s ≤ capacity := by
  constructor
  · intro claim
    have own := claim 1 timedOut unpaid (by decide)
    have without := own 0 ⟨⟨false,false,0,none⟩,some 0,.running⟩ rfl (by decide)
    exact absurd without (by decide)
  · intro claim
    have few := claim 1 timedOut unpaid (by decide)
    exact absurd few (by decide)

end Apixis.Ownership
