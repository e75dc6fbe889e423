import Apixis.Event.Ownership

/-! Nobody holds a permit while it waits for one. What the event loop does by itself
(granting a permit, resuming, launching, the done callback of a dispatch) comes to an
end, and who still waits then waits for running code of as many dispatches as there are
permits. So a handler that lends its permit for what it waits for cannot be blocked by
the want of one, whatever is nested in what. -/
namespace Apixis.PermitProgress
open ChainToken PermitLedger Ownership

/- Steps that need no code of a handler. -/
def serves : Action → Bool
  | .grantConsumer _ => true
  | .launch _ _ => true
  | .lock _ => true
  | .grantFrame _ => true
  | .resume _ => true
  | .onDispatchDone _ => true
  | _ => false

def consumerRank : Acquire → Nat
  | .waiting => 2
  | .granted => 1
  | .past => 0

def frameRank (f : Frame) : Nat :=
  match f.pc with
  | .lockWait => 3
  | .permitWait => 2
  | .granted => 1
  | _ => 0

def chainRank (c : Chain) : Nat :=
  match c.phase with
  | .finished => 1
  | _ => 0

def rank (s : State) : Nat :=
  Slots.total consumerRank s.consumers + Slots.total frameRank s.frames + Slots.total chainRank s.chains

def Waits (s : State) : Prop :=
  (∃ i : Nat, s.consumers[i]? = some .waiting) ∨ ∃ (f : Nat) (frame : Frame), s.frames[f]? = some frame ∧ Exiting frame

/- A token that is marked has nobody suspended, and its lock is held by an exit that
acquires. -/
structure Orderly (s : State) : Prop where
  lent : ∀ (c : Nat) (chain : Chain), s.chains[c]? = some chain → chain.token.held = true →
    chain.token.suspended = 0
  locks : ∀ (c : Nat) (chain : Chain) (g : Nat), s.chains[c]? = some chain → chain.token.resumeLock = some g →
    ∃ frame : Frame, s.frames[g]? = some frame ∧ frame.chain = c ∧ Acquiring frame

variable {capacity c f i : Nat} {s t : State} {a : Action} {chain next : Chain} {frame : Frame} {pc : FramePc}

section Rank

theorem chainSame {chains : List Chain} (found : chains[c]? = some chain) (next : Chain)
    (same : next.phase = chain.phase) : Slots.total chainRank (chains.set c next) = Slots.total chainRank chains := by
  have moved := Slots.totalSet (y := next) chainRank found
  simp only [chainRank,same] at moved
  omega

theorem frameMoves {frames : List Frame} (place : frames[f]? = some frame) (after : Frame) :
    Slots.total frameRank (frames.set f after) + frameRank frame = Slots.total frameRank frames + frameRank after :=
  Slots.totalSet frameRank place

theorem releaseConsumers (s : State) : s.release.consumers = s.consumers := by
  unfold State.release; split <;> rfl

theorem closeConsumers (s : State) (c : Nat) (chain : Chain) (phase : Phase) :
    (s.close c chain phase).consumers = s.consumers := by
  unfold State.close; split <;> simp [releaseConsumers]

theorem stepDown (kind : serves a = true) (taken : step s a = some t) : rank t < rank s := by
  cases stepCases taken with
  | request => cases kind
  | dropConsumer waiting => cases kind
  | returnConsumer granted => cases kind
  | spawn task => cases kind
  | detached => cases kind
  | pass => cases kind
  | enter inherited found opened => cases kind
  | leaveBody place found pc => cases kind
  | interrupt place found pc => cases kind
  | finish found phase => cases kind
  | grantConsumer waiting free =>
    have moved := Slots.totalSet (y := .granted) consumerRank waiting
    simp only [rank,State.take,consumerRank] at moved ⊢
    omega
  | launch granted =>
    have moved := Slots.totalSet (y := .past) consumerRank granted
    simp only [rank,State.launch,Slots.totalAppend,Slots.total,chainRank,consumerRank] at moved ⊢
    omega
  | launchFailed granted =>
    have moved := Slots.totalSet (y := .past) consumerRank granted
    have closed := Slots.totalSet (y := ⟨{newToken with closed := true, held := false},none,.failed⟩) chainRank
      (Slots.appendNew (l := s.chains) (y := ⟨newToken,none,.running⟩))
    simp only [Slots.totalAppend,Slots.total,chainRank] at closed
    simp only [rank,State.launchFailed,closeConsumers,closeFrames,closeChains,consumerRank] at moved ⊢
    omega
  | lock place found pc unlocked =>
    rename_i f frame chain
    unfold State.lock
    split
    · have moved := frameMoves place {frame with pc := .permitWait}
      have same := chainSame found {chain with token := {chain.token with resumeLock := some f}} rfl
      simp only [rank,State.setToken,State.setFrame,same,frameRank,pc] at moved ⊢
      omega
    · have moved := frameMoves place {frame with pc := .left}
      simp only [rank,State.setFrame,frameRank,pc] at moved ⊢
      omega
  | grantFrame place pc free =>
    rename_i f frame
    have moved := frameMoves place {frame with pc := .granted}
    simp only [rank,State.take,State.setFrame,frameRank,pc] at moved ⊢
    omega
  | resume place found pc =>
    rename_i f frame chain
    have moved := frameMoves place {frame with pc := .left}
    unfold State.resume
    split
    · have same := chainSame found {chain with token := {chain.token with resumeLock := none}} rfl
      simp only [rank,State.setFrame,State.setToken,releaseFrames,releaseChains,releaseConsumers,same,frameRank,
        pc] at moved ⊢
      omega
    · have same := chainSame found {chain with token := {chain.token with resumeLock := none, held := true}} rfl
      simp only [rank,same,State.setFrame,State.setToken,frameRank,pc] at moved ⊢
      omega
  | onDispatchDone found phase =>
    rename_i c chain
    have moved := Slots.totalSet (y := {chain with
      token := {chain.token with closed := true, held := false}, phase := .settled}) chainRank found
    simp only [rank,closeConsumers,closeFrames,closeChains,chainRank,phase] at moved ⊢
    omega

end Rank

section Orderly

theorem initialOrderly (capacity : Nat) : Orderly (initial capacity) := by
  constructor
  · intro c chain found; cases found
  · intro c chain g found; cases found

theorem orderlySame (orderly : Orderly s) (chains : t.chains = s.chains) (frames : t.frames = s.frames) : Orderly t := by
  constructor
  · rw [chains]; exact orderly.lent
  · rw [chains,frames]; exact orderly.locks

theorem orderlyChain (orderly : Orderly s) (found : s.chains[i]? = some chain) (chains : t.chains = s.chains.set i next)
    (frames : ∀ (g : Nat) (frame : Frame), s.frames[g]? = some frame → t.frames[g]? = some frame)
    (lent : next.token.held = true → next.token.suspended = 0)
    (lock : next.token.resumeLock = chain.token.resumeLock) : Orderly t := by
  constructor
  · intro c other there
    rw [chains] at there
    rcases Slots.setCases there with ⟨rfl,rfl⟩ | ⟨_,old⟩
    · exact lent
    · exact orderly.lent c other old
  · intro c other g there locked
    rw [chains] at there
    rcases Slots.setCases there with ⟨rfl,rfl⟩ | ⟨_,old⟩
    · rw [lock] at locked
      obtain ⟨frame,place,own,acquiring⟩ := orderly.locks _ chain g found locked
      exact ⟨frame,frames g frame place,own,acquiring⟩
    · obtain ⟨frame,place,own,acquiring⟩ := orderly.locks c other g old locked
      exact ⟨frame,frames g frame place,own,acquiring⟩

theorem orderlyCreated (orderly : Orderly s) (chains : t.chains = s.chains ++ [next]) (frames : t.frames = s.frames)
    (lent : next.token.held = true → next.token.suspended = 0) (lock : next.token.resumeLock = none) : Orderly t := by
  constructor
  · intro c other there
    rw [chains] at there
    rcases Slots.appendCases there with ⟨_,rfl⟩ | old
    · exact lent
    · exact orderly.lent c other old
  · intro c other g there locked
    rw [chains] at there
    rw [frames]
    rcases Slots.appendCases there with ⟨_,rfl⟩ | old
    · rw [lock] at locked
      cases locked
    · exact orderly.locks c other g old locked

theorem orderlyFrame (orderly : Orderly s) (place : s.frames[f]? = some frame)
    (found : s.chains[frame.chain]? = some chain) (frames : t.frames = s.frames.set f {frame with pc := pc})
    (chains : t.chains = s.chains.set frame.chain next)
    (lent : next.token.held = true → next.token.suspended = 0)
    (lock : ∀ g, next.token.resumeLock = some g →
      (g = f ∧ Acquiring {frame with pc := pc}) ∨ (g ≠ f ∧ chain.token.resumeLock = some g)) : Orderly t := by
  have kept : ∀ (g : Nat) (other : Frame), g ≠ f → s.frames[g]? = some other → t.frames[g]? = some other := by
    intro g other different there
    rw [frames]
    exact (Slots.setOther (Ne.symm different)).trans there
  constructor
  · intro c other there
    rw [chains] at there
    rcases Slots.setCases there with ⟨rfl,rfl⟩ | ⟨_,old⟩
    · exact lent
    · exact orderly.lent c other old
  · intro c other g there locked
    rw [chains] at there
    rcases Slots.setCases there with ⟨rfl,rfl⟩ | ⟨different,old⟩
    · rcases lock g locked with ⟨rfl,acquiring⟩ | ⟨apart,before⟩
      · exact ⟨{frame with pc := pc},by rw [frames]; exact Slots.setSame place,rfl,acquiring⟩
      · obtain ⟨held,there',own,acquiring⟩ := orderly.locks _ chain g found before
        exact ⟨held,kept g held apart there',own,acquiring⟩
    · obtain ⟨held,there',own,acquiring⟩ := orderly.locks c other g old locked
      refine ⟨held,kept g held ?_ there',own,acquiring⟩
      rintro rfl
      cases Option.some.inj (place.symm.trans there')
      exact different own

theorem lockElsewhere (orderly : Orderly s) (place : s.frames[f]? = some frame)
    (found : s.chains[frame.chain]? = some chain) (away : ¬Acquiring frame) {g : Nat}
    (locked : chain.token.resumeLock = some g) : g ≠ f := by
  obtain ⟨held,there,_,acquiring⟩ := orderly.locks _ chain g found locked
  rintro rfl
  cases Option.some.inj (place.symm.trans there)
  exact away acquiring

theorem stepOrderly (known : Known capacity s) (orderly : Orderly s) (taken : step s a = some t) : Orderly t := by
  cases stepCases taken with
  | request => exact orderlySame orderly rfl rfl
  | grantConsumer waiting free => exact orderlySame orderly rfl rfl
  | dropConsumer waiting => exact orderlySame orderly rfl rfl
  | returnConsumer granted => exact orderlySame orderly rfl rfl
  | spawn task => exact orderlySame orderly rfl rfl
  | detached => exact orderlySame orderly rfl rfl
  | pass => exact orderly
  | launch granted => exact orderlyCreated orderly rfl rfl (fun _ => rfl) rfl
  | @launchFailed i granted =>
    let created : State := {s with
      consumers := s.consumers.set i .past, chains := s.chains ++ [⟨newToken,none,.running⟩]}
    have begun : Orderly created := orderlyCreated orderly rfl rfl (fun _ => rfl) rfl
    have there : created.chains[s.chains.length]? = some ⟨newToken,none,.running⟩ := Slots.appendNew
    refine orderlyChain begun there (closeChains _ _ _ _) ?_ (fun marked => by cases marked) rfl
    intro g frame place
    rw [State.launchFailed,closeFrames]
    exact place
  | enter inherited found opened =>
    refine orderlyChain orderly found rfl ?_ (fun marked => by cases marked) rfl
    intro g frame place
    rw [enterFrames]
    exact Slots.appendOld place
  | @leaveBody f frame chain place found pc =>
    refine orderlyFrame orderly place found rfl rfl ?_ ?_
    · intro marked
      -- its own suspension is counted
      have none_ := orderly.lent _ chain found marked
      have counted := known.2 _ chain found
      have one := Slots.countPositive (inBody frame.chain) place (by simp [inBody,pc])
      omega
    · intro g locked
      exact .inr ⟨lockElsewhere orderly place found (by simp [Acquiring,pc]) locked,locked⟩
  | @lock f frame chain place found pc unlocked =>
    have lent := orderly.lent _ chain found
    unfold State.lock
    split
    · refine orderlyFrame orderly place found rfl rfl lent ?_
      intro g locked
      exact .inl ⟨(Option.some.inj locked).symm,.inl rfl⟩
    · refine orderlyFrame orderly place found rfl (Slots.setEqual found).symm lent ?_
      intro g locked
      rw [unlocked] at locked
      cases locked
  | @grantFrame f frame place pc free =>
    have found := List.getElem?_eq_getElem (known.1.valid frame (List.mem_of_getElem? place))
    refine orderlyFrame orderly place found rfl (Slots.setEqual found).symm (orderly.lent _ _ found) ?_
    intro g locked
    by_cases same : g = f
    · exact .inl ⟨same,.inr rfl⟩
    · exact .inr ⟨same,locked⟩
  | @resume f frame chain place found pc =>
    unfold State.resume
    split
    · exact orderlyFrame orderly place found (releasedFrames _ _ _ _ _ _ _) (releasedChains _ _ _ _ _ _ _)
        (orderly.lent _ chain found) (fun g locked => by cases locked)
    · rename_i keep
      simp only [Bool.or_eq_true,not_or,Bool.not_eq_true,bne_eq_false_iff_eq] at keep
      exact orderlyFrame orderly place found rfl rfl (fun _ => keep.2) (fun g locked => by cases locked)
  | @interrupt f frame chain place found pc =>
    have lent := orderly.lent _ chain found
    rcases pc with pc | pc | pc <;> simp only [State.interrupt,pc]
    · refine orderlyFrame orderly place found rfl (Slots.setEqual found).symm lent ?_
      intro g locked
      exact .inr ⟨lockElsewhere orderly place found (by simp [Acquiring,pc]) locked,locked⟩
    · exact orderlyFrame orderly place found rfl rfl lent (fun g locked => by cases locked)
    · exact orderlyFrame orderly place found rfl rfl lent (fun g locked => by cases locked)
  | @finish c chain found phase =>
    have lent := orderly.lent c chain found
    exact orderlyChain orderly found rfl (fun _ _ place => place) lent rfl
  | onDispatchDone found phase =>
    refine orderlyChain orderly found (closeChains _ _ _ _) ?_ (fun marked => by cases marked) rfl
    intro g frame place
    rw [closeFrames]
    exact place

theorem runOrderly {r : List Action} (ran : Machine.run step (initial capacity) r = some s) :
    Known capacity s ∧ Orderly s :=
  Machine.invariant (P := fun s => Known capacity s ∧ Orderly s)
    (fun _ _ _ kept taken => ⟨stepKnown kept.1 taken,stepOrderly kept.1 kept.2 taken⟩)
    ⟨initialKnown capacity,initialOrderly capacity⟩ ran

end Orderly

/- Every permit is marked on a token, and its dispatch is running code of a handler. -/
structure Taken (capacity : Nat) (s : State) : Prop where
  none_ : s.semaphore.value = 0
  all : heldTokens s = capacity
  running : ∀ (c : Nat) (chain : Chain), s.chains[c]? = some chain → chain.token.held = true →
    chain.phase = .running ∧ Foreground s c chain

section Quiet
variable (quiet : ∀ a, serves a = true → step s a = none)
include quiet

theorem consumersQuiet : s.consumers.countP consumerGrant = 0 := by
  refine List.countP_eq_zero.mpr ?_
  intro acquire member granted
  obtain ⟨i,place⟩ := List.mem_iff_getElem?.mp member
  cases acquire with
  | granted =>
    have blocked := quiet (.launch i true) rfl
    rw [step,if_pos place] at blocked
    cases blocked
  | waiting => cases granted
  | past => cases granted

theorem framesQuiet (ledger : Ledger capacity s) (place : s.frames[f]? = some frame) : frame.pc ≠ .granted := by
  intro pc
  have found := List.getElem?_eq_getElem (ledger.valid frame (List.mem_of_getElem? place))
  have blocked := quiet (.resume f) rfl
  simp only [step,place,found,bind,Option.bind_some,if_pos pc] at blocked
  cases blocked

theorem acquiringQuiet (ledger : Ledger capacity s) (place : s.frames[f]? = some frame) (acquiring : Acquiring frame) :
    s.semaphore.value = 0 := by
  have pc := acquiring.resolve_right (framesQuiet quiet ledger place)
  have blocked := quiet (.grantFrame f) rfl
  simp only [step,place,bind,Option.bind_some] at blocked
  split at blocked
  · cases blocked
  · rename_i none_
    by_contra some_
    exact none_ ⟨pc,Nat.pos_of_ne_zero some_⟩

/- An exit that waits for the lock waits for one that acquires. -/
theorem lockQuiet (orderly : Orderly s) (place : s.frames[f]? = some frame)
    (found : s.chains[frame.chain]? = some chain) (pc : frame.pc = .lockWait) :
    ∃ (g : Nat) (other : Frame), s.frames[g]? = some other ∧ other.chain = frame.chain ∧ Acquiring other := by
  cases locked : chain.token.resumeLock with
  | some g => exact ⟨g,orderly.locks _ chain g found locked⟩
  | none =>
    have blocked := quiet (.lock f) rfl
    simp only [step,place,found,bind,Option.bind_some] at blocked
    rw [if_pos ⟨pc,locked⟩] at blocked
    cases blocked

theorem exitQuiet (ledger : Ledger capacity s) (orderly : Orderly s) (place : s.frames[f]? = some frame)
    (exiting : Exiting frame) :
    ∃ (g : Nat) (other : Frame), s.frames[g]? = some other ∧ other.chain = frame.chain ∧ Acquiring other := by
  have found := List.getElem?_eq_getElem (ledger.valid frame (List.mem_of_getElem? place))
  rcases exiting with waits | waits
  · exact lockQuiet quiet orderly place found waits
  · exact ⟨f,frame,place,rfl,waits⟩

/- Nobody waits for anything but the semaphore, so it has nothing left. -/
theorem waitsExhausted (ledger : Ledger capacity s) (orderly : Orderly s) (waits : Waits s) : s.semaphore.value = 0 := by
  rcases waits with ⟨i,waiting⟩ | ⟨f,frame,place,exiting⟩
  · have blocked := quiet (.grantConsumer i) rfl
    rw [step] at blocked
    split at blocked
    · cases blocked
    · rename_i none_
      by_contra some_
      exact none_ ⟨waiting,Nat.pos_of_ne_zero some_⟩
  · obtain ⟨g,other,there,_,acquiring⟩ := exitQuiet quiet ledger orderly place exiting
    exact acquiringQuiet quiet ledger there acquiring

theorem grantsQuiet (ledger : Ledger capacity s) : grantedAcquisitions s = 0 := by
  have frames : s.frames.countP frameGrant = 0 := by
    refine List.countP_eq_zero.mpr ?_
    intro frame member granted
    obtain ⟨f,place⟩ := List.mem_iff_getElem?.mp member
    exact framesQuiet quiet ledger place (by simpa [frameGrant] using granted)
  rw [grantedAcquisitions,consumersQuiet quiet,frames]

theorem phaseQuiet (facts : ChainFacts chain) (found : s.chains[c]? = some chain) (opened : chain.token.closed = false) :
    chain.phase = .running := by
  cases phase : chain.phase with
  | running => rfl
  | finished =>
    have blocked := quiet (.onDispatchDone c) rfl
    simp only [step,found,bind,Option.bind_some,if_pos phase] at blocked
    cases blocked
  | settled => exact absurd (facts.settled (.inl phase)) (by rw [opened]; decide)
  | failed => exact absurd (facts.settled (.inr phase)) (by rw [opened]; decide)

/- An exit of the chain would acquire, and then the chain has no permit. -/
theorem heldNotExiting (ledger : Ledger capacity s) (orderly : Orderly s) (found : s.chains[c]? = some chain)
    (marked : chain.token.held = true) (place : s.frames[f]? = some frame) : exits c frame = false := by
  cases own : exits c frame with
  | false => rfl
  | true =>
    simp only [exits,Bool.and_eq_true,beq_iff_eq,decide_eq_true_eq] at own
    obtain ⟨g,other,there,same,acquiring⟩ := exitQuiet quiet ledger orderly place own.2
    have without := (ledger.locked c chain found g other there (same.trans own.1) acquiring).2
    rw [marked] at without
    cases without

theorem waitsTaken (ledger : Ledger capacity s) (orderly : Orderly s) (waits : Waits s) : Taken capacity s := by
  have none_ := waitsExhausted quiet ledger orderly waits
  refine ⟨none_,?_,?_⟩
  · have total := ledger.total
    rw [grantsQuiet quiet ledger,none_] at total
    omega
  · intro c chain found marked
    have facts := ledger.facts chain (List.mem_of_getElem? found)
    have opened : chain.token.closed = false := by
      cases closed : chain.token.closed with
      | false => rfl
      | true => exact absurd marked (by rw [facts.closed closed]; decide)
    refine ⟨phaseQuiet quiet facts found opened,opened,orderly.lent c chain found marked,?_⟩
    intro frame member
    obtain ⟨f,place⟩ := List.mem_iff_getElem?.mp member
    exact heldNotExiting quiet ledger orderly found marked place

end Quiet

/- From every state the event loop comes to the end of what it does by itself, whatever
it does first; if anybody still waits for a permit then, all permits are with dispatches
that are running code. -/
theorem waitersServed {r : List Action} (ran : Machine.run step (initial capacity) r = some s) :
    (∃ r' t, (∀ a ∈ r', serves a = true) ∧ Machine.run step s r' = some t ∧ ∀ a, serves a = true → step t a = none) ∧
    ∀ r' t, (∀ a ∈ r', serves a = true) → Machine.run step s r' = some t →
      r'.length ≤ rank s ∧ ((∀ a, serves a = true → step t a = none) → Waits t → Taken capacity t) := by
  have down : ∀ (s : State) (a : Action) (t : State), serves a = true → step s a = some t → rank t < rank s :=
    fun _ _ _ => stepDown
  refine ⟨Machine.exhaust down s,?_⟩
  intro r' t all later
  have few := Machine.runFew down all later
  refine ⟨by omega,?_⟩
  intro quiet waits
  obtain ⟨known,orderly⟩ := runOrderly (Machine.runAppend.mpr ⟨s,ran,later⟩)
  exact waitsTaken quiet known.1 orderly waits

/- With one permit, handlers nested three deep: each has lent the permit for what it
waits for, the innermost one has just ended, and the consumer waits as well. -/
def nested : List Action :=
  [.request,.grantConsumer 0,.launch 0 true,.enter 0,.request,.grantConsumer 1,.launch 1 true,.enter 1,
    .request,.grantConsumer 2,.launch 2 true,.finish 2,.leaveBody 1,.request]

def returned : List Action := [.lock 1,.onDispatchDone 2,.grantFrame 1,.resume 1]

def quieted : State := (Machine.run step (initial 1) (nested ++ returned)).getD (initial 1)

theorem quietedQuiet (a : Action) (own : serves a = true) : step quieted a = none := by
  cases a with
  | grantConsumer i =>
    match i with
    | 0 | 1 | 2 | 3 => rfl
    | i + 4 => rfl
  | launch i ok =>
    match i with
    | 0 | 1 | 2 | 3 => rfl
    | i + 4 => rfl
  | lock f | grantFrame f | resume f =>
    match f with
    | 0 | 1 => rfl
    | f + 2 => rfl
  | onDispatchDone c =>
    match c with
    | 0 | 1 | 2 => rfl
    | c + 3 => rfl
  | _ => cases own

theorem waitersServedNested : ∃ s, Machine.run step (initial 1) nested = some s ∧ Waits s ∧
    (∃ r' t, (∀ a ∈ r', serves a = true) ∧ Machine.run step s r' = some t ∧ ∀ a, serves a = true → step t a = none) ∧
    (∀ r' t, (∀ a ∈ r', serves a = true) → Machine.run step s r' = some t →
      r'.length ≤ rank s ∧ ((∀ a, serves a = true → step t a = none) → Waits t → Taken 1 t)) ∧
    Machine.run step s returned = some quieted ∧ Waits quieted ∧ Taken 1 quieted := by
  have ran : ∃ s, Machine.run step (initial 1) nested = some s ∧ Waits s ∧ Machine.run step s returned = some quieted :=
    ⟨_,rfl,.inr ⟨1,_,rfl,.inl rfl⟩,rfl⟩
  obtain ⟨s,ran,waits,later⟩ := ran
  have still : Waits quieted := .inl ⟨3,rfl⟩
  obtain ⟨ends,served⟩ := waitersServed ran
  exact ⟨s,ran,waits,ends,served,later,still,(served returned quieted (by decide) later).2 quietedQuiet still⟩

end Apixis.PermitProgress
