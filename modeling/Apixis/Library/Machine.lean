import Mathlib.Data.List.Induction

/-! Runs of a machine whose step is a partial function. An action carries every
choice the environment makes, so one list of actions is one interleaving and a
disabled action ends nothing but its own list. -/
namespace Apixis.Machine

universe u v w x
variable {σ : Type u} {α : Type v} {τ : Type w} {β : Type v} {ε : Type x}

def run (step : σ → α → Option σ) : σ → List α → Option σ
  | s, [] => some s
  | s, a :: rest => (step s a).bind (fun t => run step t rest)

@[simp] theorem runNil (step : σ → α → Option σ) (s : σ) : run step s [] = some s := rfl

theorem runCons {step : σ → α → Option σ} {s t : σ} {a : α} {rest : List α} :
    run step s (a :: rest) = some t ↔ ∃ m, step s a = some m ∧ run step m rest = some t := by
  simp only [run,Option.bind_eq_some_iff]

theorem runAppend {step : σ → α → Option σ} {s t : σ} {before after : List α} :
    run step s (before ++ after) = some t ↔
      ∃ m, run step s before = some m ∧ run step m after = some t := by
  induction before generalizing s with
  | nil => simp
  | cons a rest ih =>
    simp only [List.cons_append,runCons,ih]
    constructor
    · rintro ⟨m,hm,n,hn,last⟩
      exact ⟨n,⟨m,hm,hn⟩,last⟩
    · rintro ⟨n,⟨m,hm,hn⟩,last⟩
      exact ⟨m,hm,n,hn,last⟩

theorem runSnoc {step : σ → α → Option σ} {s t : σ} {before : List α} {a : α} :
    run step s (before ++ [a]) = some t ↔ ∃ m, run step s before = some m ∧ step m a = some t := by
  simp [runAppend,runCons]

/- What holds at the start and survives every step holds after every run. -/
theorem invariant {step : σ → α → Option σ} {P : σ → Prop}
    (keep : ∀ s a t, P s → step s a = some t → P t) {s t : σ} {as : List α}
    (start : P s) (ran : run step s as = some t) : P t := by
  induction as generalizing s with
  | nil => cases Option.some.inj ran; exact start
  | cons a rest ih =>
    obtain ⟨m,hm,last⟩ := runCons.mp ran
    exact ih (keep s a m start hm) last

theorem invariantWhere {step : σ → α → Option σ} {P : σ → Prop} {C : α → Prop}
    (keep : ∀ s a t, C a → P s → step s a = some t → P t) {s t : σ} {as : List α}
    (allowed : ∀ a ∈ as, C a) (start : P s) (ran : run step s as = some t) : P t := by
  induction as generalizing s with
  | nil => cases Option.some.inj ran; exact start
  | cons a rest ih =>
    obtain ⟨m,hm,last⟩ := runCons.mp ran
    exact ih (fun b member => allowed b (List.mem_cons_of_mem _ member))
      (keep s a m (allowed a List.mem_cons_self) start hm) last

/- What holds of a run and its end, and of a run extended by one step. -/
theorem history {step : σ → α → Option σ} {s : σ} {P : List α → σ → Prop}
    (start : P [] s)
    (keep : ∀ r m a t, run step s r = some m → P r m → step m a = some t → P (r ++ [a]) t)
    {t : σ} {r : List α} (ran : run step s r = some t) : P r t := by
  induction r using List.reverseRecOn generalizing t with
  | nil => cases Option.some.inj ran; exact start
  | append_singleton r a ih =>
    obtain ⟨m,hm,last⟩ := runSnoc.mp ran
    exact keep r m a t hm (ih hm) last

/- `P` holds in every state the run passes through, its ends included. -/
def Along (step : σ → α → Option σ) (P : σ → Prop) : σ → List α → Prop
  | s, [] => P s
  | s, a :: rest => P s ∧ ∀ t, step s a = some t → Along step P t rest

/- `C` holds of every action of the run in the state it is taken from. -/
def Steps (step : σ → α → Option σ) (C : σ → α → Prop) : σ → List α → Prop
  | _, [] => True
  | s, a :: rest => C s a ∧ ∀ t, step s a = some t → Steps step C t rest

theorem stepsImp {step : σ → α → Option σ} {C D : σ → α → Prop} (imp : ∀ s a, C s a → D s a) {s : σ}
    {as : List α} (met : Steps step C s as) : Steps step D s as := by
  induction as generalizing s with
  | nil => trivial
  | cons a rest ih => exact ⟨imp s a met.1,fun t taken => ih (met.2 t taken)⟩

theorem stepsAll {step : σ → α → Option σ} {C : σ → α → Prop} {as : List α} (all : ∀ a ∈ as, ∀ s, C s a) {s : σ} :
    Steps step C s as := by
  induction as generalizing s with
  | nil => trivial
  | cons a rest ih =>
    exact ⟨all a List.mem_cons_self s,fun t _ => ih (fun b member => all b (List.mem_cons_of_mem a member))⟩

theorem stepsAnd {step : σ → α → Option σ} {C D : σ → α → Prop} {s : σ} {as : List α}
    (first : Steps step C s as) (second : Steps step D s as) :
    Steps step (fun s a => C s a ∧ D s a) s as := by
  induction as generalizing s with
  | nil => trivial
  | cons a rest ih => exact ⟨⟨first.1,second.1⟩,fun t taken => ih (first.2 t taken) (second.2 t taken)⟩

theorem invariantSteps {step : σ → α → Option σ} {P : σ → Prop} {C : σ → α → Prop}
    (keep : ∀ s a t, C s a → P s → step s a = some t → P t) {s t : σ} {as : List α}
    (met : Steps step C s as) (start : P s) (ran : run step s as = some t) : P t := by
  induction as generalizing s with
  | nil => cases Option.some.inj ran; exact start
  | cons a rest ih =>
    obtain ⟨m,hm,last⟩ := runCons.mp ran
    exact ih (met.2 m hm) (keep s a m met.1 start hm) last

theorem stepsAppend {step : σ → α → Option σ} {C : σ → α → Prop} {s t : σ} {before after : List α}
    (ran : run step s before = some t) :
    Steps step C s (before ++ after) ↔ Steps step C s before ∧ Steps step C t after := by
  induction before generalizing s with
  | nil =>
    cases Option.some.inj ran
    exact ⟨fun met => ⟨trivial,met⟩,fun both => both.2⟩
  | cons a rest ih =>
    obtain ⟨m,hm,last⟩ := runCons.mp ran
    constructor
    · rintro ⟨here,next⟩
      obtain ⟨first,second⟩ := (ih last).mp (next m hm)
      refine ⟨⟨here,?_⟩,second⟩
      intro n hn
      cases Option.some.inj (hm.symm.trans hn)
      exact first
    · rintro ⟨⟨here,next⟩,second⟩
      refine ⟨here,?_⟩
      intro n hn
      cases Option.some.inj (hm.symm.trans hn)
      exact (ih last).mpr ⟨next m hm,second⟩

theorem stepsSnoc {step : σ → α → Option σ} {C : σ → α → Prop} {s m : σ} {r : List α} {a : α}
    (met : Steps step C s (r ++ [a])) (ran : run step s r = some m) :
    Steps step C s r ∧ C m a := by
  obtain ⟨before,here,_⟩ := (stepsAppend ran).mp met
  exact ⟨before,here⟩

theorem historySteps {step : σ → α → Option σ} {s : σ} {P : List α → σ → Prop} {C : σ → α → Prop}
    (start : P [] s)
    (keep : ∀ r m a t, Steps step C s r → run step s r = some m → C m a → P r m →
      step m a = some t → P (r ++ [a]) t)
    {t : σ} {r : List α} (met : Steps step C s r) (ran : run step s r = some t) : P r t := by
  induction r using List.reverseRecOn generalizing t with
  | nil => cases Option.some.inj ran; exact start
  | append_singleton r a ih =>
    obtain ⟨m,hm,last⟩ := runSnoc.mp ran
    obtain ⟨before,here⟩ := stepsSnoc met hm
    exact keep r m a t before hm here (ih before hm) last

theorem alongHead {step : σ → α → Option σ} {P : σ → Prop} {s : σ} {r : List α}
    (along : Along step P s r) : P s := by
  cases r with
  | nil => exact along
  | cons a rest => exact along.1

theorem alongAppend {step : σ → α → Option σ} {P : σ → Prop} {s t : σ} {before after : List α}
    (ran : run step s before = some t) :
    Along step P s (before ++ after) ↔ Along step P s before ∧ Along step P t after := by
  induction before generalizing s with
  | nil =>
    cases Option.some.inj ran
    rw [List.nil_append]
    constructor
    · intro along
      have here : P t := alongHead along
      exact ⟨here,along⟩
    · exact fun both => both.2
  | cons a rest ih =>
    obtain ⟨m,hm,last⟩ := runCons.mp ran
    constructor
    · rintro ⟨here,next⟩
      obtain ⟨first,second⟩ := (ih last).mp (next m hm)
      refine ⟨⟨here,?_⟩,second⟩
      intro n hn
      cases Option.some.inj (hm.symm.trans hn)
      exact first
    · rintro ⟨⟨here,next⟩,second⟩
      refine ⟨here,?_⟩
      intro n hn
      cases Option.some.inj (hm.symm.trans hn)
      exact (ih last).mpr ⟨next m hm,second⟩

theorem alongLast {step : σ → α → Option σ} {P : σ → Prop} {s t : σ} {r : List α}
    (along : Along step P s r) (ran : run step s r = some t) : P t := by
  rw [← List.append_nil r] at along
  exact alongHead ((alongAppend ran).mp along).2

theorem historyAlong {step : σ → α → Option σ} {s : σ} {Q : List α → σ → Prop} {P : σ → Prop}
    (start : Q [] s)
    (keep : ∀ r m a t, run step s r = some m → P m → P t → Q r m → step m a = some t → Q (r ++ [a]) t)
    {t : σ} {r : List α} (along : Along step P s r) (ran : run step s r = some t) : Q r t := by
  induction r using List.reverseRecOn generalizing t with
  | nil => cases Option.some.inj ran; exact start
  | append_singleton r a ih =>
    obtain ⟨m,hm,last⟩ := runSnoc.mp ran
    obtain ⟨before,here,next⟩ := (alongAppend hm).mp along
    exact keep r m a t hm here (next t last) (ih before hm) last

def tally (step : σ → α → Option σ) (f : σ → α → Nat) : σ → List α → Nat
  | _, [] => 0
  | s, a :: rest => f s a + match step s a with
      | some t => tally step f t rest
      | none => 0

theorem tallyAppend {step : σ → α → Option σ} {f : σ → α → Nat} {s t : σ} {before after : List α}
    (ran : run step s before = some t) :
    tally step f s (before ++ after) = tally step f s before + tally step f t after := by
  induction before generalizing s with
  | nil =>
    cases Option.some.inj ran
    simp only [List.nil_append,tally,Nat.zero_add]
  | cons a rest ih =>
    obtain ⟨m,hm,last⟩ := runCons.mp ran
    simp only [List.cons_append,tally,hm,ih last,Nat.add_assoc]

theorem tallySnoc {step : σ → α → Option σ} {f : σ → α → Nat} {s t : σ} {r : List α} {a : α}
    (ran : run step s r = some t) : tally step f s (r ++ [a]) = tally step f s r + f t a := by
  rw [tallyAppend ran]
  simp only [tally]
  cases step t a <;> rfl

theorem tallyNone {step : σ → α → Option σ} {f : σ → α → Nat} {I : σ → Prop}
    (keep : ∀ s a t, I s → step s a = some t → I t) (none_ : ∀ s a, I s → f s a = 0)
    {s : σ} {r : List α} (known : I s) : tally step f s r = 0 := by
  induction r generalizing s with
  | nil => rfl
  | cons a rest ih =>
    simp only [tally,none_ s a known,Nat.zero_add]
    cases next : step s a with
    | none => rfl
    | some t => exact ih (keep s a t known next)

/- What the steps of a run have to tell, in order. -/
def journal (step : σ → α → Option σ) (emit : σ → α → List ε) : σ → List α → List ε
  | _, [] => []
  | s, a :: rest => emit s a ++ match step s a with
      | some t => journal step emit t rest
      | none => []

@[simp] theorem journalNil (step : σ → α → Option σ) (emit : σ → α → List ε) (s : σ) :
    journal step emit s [] = [] := rfl

theorem journalAppend {step : σ → α → Option σ} {emit : σ → α → List ε} {s t : σ}
    {before after : List α} (ran : run step s before = some t) :
    journal step emit s (before ++ after) =
      journal step emit s before ++ journal step emit t after := by
  induction before generalizing s with
  | nil =>
    cases Option.some.inj ran
    rfl
  | cons a rest ih =>
    obtain ⟨m,hm,last⟩ := runCons.mp ran
    simp only [List.cons_append,journal,hm,ih last,List.append_assoc]

theorem journalSnoc {step : σ → α → Option σ} {emit : σ → α → List ε} {s t : σ} {r : List α} {a : α}
    (ran : run step s r = some t) :
    journal step emit s (r ++ [a]) = journal step emit s r ++ emit t a := by
  rw [journalAppend ran]
  simp only [journal]
  cases step t a <;> simp

def Endless (step : σ → α → Option σ) (states : Nat → σ) (acts : Nat → α) : Prop :=
  ∀ n, step (states n) (acts n) = some (states (n + 1))

theorem endlessRun {step : σ → α → Option σ} {states : Nat → σ} {acts : Nat → α}
    (endless : Endless step states acts) (n : Nat) :
    run step (states 0) ((List.range n).map acts) = some (states n) := by
  induction n with
  | zero => rfl
  | succ n ih =>
    rw [List.range_succ,List.map_append]
    exact runSnoc.mpr ⟨states n,ih,endless n⟩

theorem endlessAlong {step : σ → α → Option σ} {states : Nat → σ} {acts : Nat → α} {P : σ → Prop}
    (endless : Endless step states acts) (all : ∀ n, P (states n)) (n : Nat) :
    Along step P (states 0) ((List.range n).map acts) := by
  induction n with
  | zero => exact all 0
  | succ n ih =>
    rw [List.range_succ,List.map_append]
    refine (alongAppend (endlessRun endless n)).mpr ⟨ih,all n,?_⟩
    intro t taken
    cases Option.some.inj ((endless n).symm.trans taken)
    exact all (n + 1)

def check (step : σ → α → Option σ) (C : σ → α → Bool) : σ → List α → Bool
  | _, [] => true
  | s, a :: rest => C s a && match step s a with
      | some t => check step C t rest
      | none => true

theorem stepsOfCheck {step : σ → α → Option σ} {C : σ → α → Bool} {s : σ} {as : List α}
    (good : check step C s as = true) : Steps step (fun s a => C s a = true) s as := by
  induction as generalizing s with
  | nil => trivial
  | cons a rest ih =>
    simp only [check,Bool.and_eq_true] at good
    refine ⟨good.1,?_⟩
    intro t taken
    have later := good.2
    rw [taken] at later
    exact ih later

theorem stepsOfDecide {step : σ → α → Option σ} {C : σ → α → Prop} [∀ s a, Decidable (C s a)] {s : σ}
    {as : List α} (good : check step (fun s a => decide (C s a)) s as = true) : Steps step C s as := by
  induction as generalizing s with
  | nil => trivial
  | cons a rest ih =>
    simp only [check,Bool.and_eq_true,decide_eq_true_eq] at good
    refine ⟨good.1,?_⟩
    intro t taken
    have later := good.2
    rw [taken] at later
    exact ih later

def checkAlong (step : σ → α → Option σ) (P : σ → Bool) : σ → List α → Bool
  | s, [] => P s
  | s, a :: rest => P s && match step s a with
      | some t => checkAlong step P t rest
      | none => true

theorem alongOfDecide {step : σ → α → Option σ} {P : σ → Prop} [∀ s, Decidable (P s)] {s : σ}
    {as : List α} (good : checkAlong step (fun s => decide (P s)) s as = true) : Along step P s as := by
  induction as generalizing s with
  | nil =>
    have here : P s := of_decide_eq_true good
    exact here
  | cons a rest ih =>
    simp only [checkAlong,Bool.and_eq_true,decide_eq_true_eq] at good
    refine ⟨good.1,?_⟩
    intro t taken
    have later := good.2
    rw [taken] at later
    exact ih later

/- If one step keeps `P` exactly when it meets `C`, then a run stays inside `P`
exactly when all its steps meet `C`. -/
theorem alongIffSteps {step : σ → α → Option σ} {I P : σ → Prop} {C : σ → α → Prop}
    (keep : ∀ s a t, I s → step s a = some t → I t)
    (exact : ∀ s a t, I s → P s → step s a = some t → (P t ↔ C s a))
    {s t : σ} {as : List α} (known : I s) (start : P s) (ran : run step s as = some t) :
    Along step P s as ↔ Steps step C s as := by
  induction as generalizing s with
  | nil => exact ⟨fun _ => trivial,fun _ => start⟩
  | cons a rest ih =>
    obtain ⟨m,hm,last⟩ := runCons.mp ran
    constructor
    · rintro ⟨_,next⟩
      have inside : P m := by
        have tail := next m hm
        cases rest with
        | nil => exact tail
        | cons b more => exact tail.1
      refine ⟨(exact s a m known start hm).mp inside,?_⟩
      intro n hn
      cases Option.some.inj (hm.symm.trans hn)
      exact (ih (keep s a m known hm) inside last).mp (next m hm)
    · rintro ⟨met,next⟩
      have inside := (exact s a m known start hm).mpr met
      refine ⟨start,?_⟩
      intro n hn
      cases Option.some.inj (hm.symm.trans hn)
      exact (ih (keep s a m known hm) inside last).mpr (next m hm)

section Exhaust
variable {step : σ → α → Option σ} {C : α → Prop} {rank : σ → Nat}
  (down : ∀ s a t, C a → step s a = some t → rank t < rank s)
include down

/- Where every step of a kind makes a rank smaller, the rank bounds a run of them. -/
theorem runFew {s t : σ} {as : List α} (all : ∀ a ∈ as, C a) (ran : run step s as = some t) :
    as.length + rank t ≤ rank s := by
  induction as generalizing s with
  | nil =>
    cases Option.some.inj ran
    simp
  | cons a rest ih =>
    obtain ⟨m,taken,last⟩ := runCons.mp ran
    have first := down s a m (all a List.mem_cons_self) taken
    have tail := ih (fun b member => all b (List.mem_cons_of_mem _ member)) last
    simp only [List.length_cons]
    omega

/- Taken as long as there is one, they come to a state with none left. -/
theorem exhaust (s : σ) : ∃ as t, (∀ a ∈ as, C a) ∧ run step s as = some t ∧ ∀ a, C a → step t a = none := by
  by_cases more : ∃ a t, C a ∧ step s a = some t
  · obtain ⟨a,m,kind,taken⟩ := more
    have _less := down s a m kind taken
    obtain ⟨as,t,all,ran,last⟩ := exhaust m
    refine ⟨a :: as,t,?_,runCons.mpr ⟨m,taken,ran⟩,last⟩
    intro b member
    rcases List.mem_cons.mp member with rfl | inside
    · exact kind
    · exact all b inside
  · refine ⟨[],s,fun _ none_ => (by cases none_),rfl,?_⟩
    intro a kind
    cases taken : step s a with
    | none => rfl
    | some t => exact absurd ⟨a,t,kind,taken⟩ more
termination_by rank s

end Exhaust

end Apixis.Machine
