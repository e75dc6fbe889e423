import Mathlib.Data.Option.Basic

/-! A loop: `body` is repeated until `stop` holds, or until it fails. Where every
turn makes a measure smaller, the measure is fuel enough. -/
namespace Apixis.Loop

inductive Ending (σ : Type) where
  | finished (s : σ)
  | failed
  deriving DecidableEq, Repr

variable {σ : Type}

/- The state after `n` turns. -/
def ahead (body : σ → Option σ) : Nat → σ → Option σ
  | 0, s => some s
  | n + 1, s => (body s).bind (ahead body n)

def iterate (stop : σ → Bool) (body : σ → Option σ) : Nat → σ → Ending σ
  | 0, s => if stop s then .finished s else .failed
  | n + 1, s =>
      if stop s then .finished s
      else match body s with
        | some t => iterate stop body n t
        | none => .failed

def run (stop : σ → Bool) (body : σ → Option σ) (measure : σ → Nat) (s : σ) : Ending σ :=
  iterate stop body (measure s) s

variable {stop : σ → Bool} {body : σ → Option σ} {measure : σ → Nat} {s t u : σ} {m n : Nat}

theorem aheadSnoc : ahead body (n + 1) s = (ahead body n s).bind body := by
  induction n generalizing s with
  | zero =>
    cases next : body s <;> simp [ahead,next]
  | succ n ih =>
    rw [ahead]
    cases next : body s with
    | none => simp [ahead,next]
    | some t =>
      rw [Option.bind_some,ih]
      simp only [ahead,next,Option.bind_some]

theorem aheadAdd : ahead body (m + n) s = (ahead body m s).bind (ahead body n) := by
  induction m generalizing s with
  | zero => rw [Nat.zero_add]; rfl
  | succ m ih =>
    rw [Nat.succ_add]
    simp only [ahead]
    cases body s with
    | none => rfl
    | some t => exact ih

theorem aheadLast (first : ahead body m s = some t) (ends : body t = none)
    (second : ahead body n s = some u) (stops : body u = none) : t = u := by
  have within : ∀ {j k : Nat} {t u : σ}, j ≤ k → ahead body j s = some t → body t = none →
      ahead body k s = some u → t = u := by
    intro j k t u order first ends second
    obtain ⟨l,rfl⟩ := Nat.exists_eq_add_of_le order
    rw [aheadAdd,first,Option.bind_some] at second
    cases l with
    | zero => exact Option.some.inj second
    | succ l =>
      simp only [ahead,ends,Option.bind_none] at second
      cases second
  rcases Nat.le_total m n with order | order
  · exact within order first ends second
  · exact (within order second stops first).symm

theorem iterateNone (fails : body s = none) :
    iterate stop body n s = if stop s then .finished s else .failed := by
  cases n with
  | zero => rfl
  | succ n => simp only [iterate,fails]

theorem iterateSome (shrinks : ∀ s t, body s = some t → measure t < measure s) (next : body s = some t)
    (more : measure s ≤ n) :
    iterate stop body n s = if stop s then .finished s else iterate stop body (n - 1) t := by
  have smaller := shrinks s t next
  obtain ⟨k,rfl⟩ : ∃ k, n = k + 1 := ⟨n - 1,by omega⟩
  simp only [iterate,next,Nat.add_sub_cancel]

/- More fuel than the measure makes no difference. -/
theorem iterateEnough (shrinks : ∀ s t, body s = some t → measure t < measure s)
    (more : measure s ≤ n) : iterate stop body n s = run stop body measure s := by
  induction n using Nat.strongRecOn generalizing s with
  | ind n ih =>
    unfold run
    cases next : body s with
    | none => rw [iterateNone next,iterateNone next]
    | some t =>
      have smaller := shrinks s t next
      rw [iterateSome shrinks next more,iterateSome shrinks next (Nat.le_refl _),
        ih (n - 1) (by omega) (by omega),ih (measure s - 1) (by omega) (by omega)]

theorem runUnfold (shrinks : ∀ s t, body s = some t → measure t < measure s) :
    run stop body measure s = if stop s then .finished s else match body s with
      | some t => run stop body measure t
      | none => .failed := by
  unfold run
  cases next : body s with
  | none => exact iterateNone next
  | some t =>
    have smaller := shrinks s t next
    rw [iterateSome shrinks next (Nat.le_refl _),iterateEnough shrinks (by omega)]
    rfl

theorem runAhead (shrinks : ∀ s t, body s = some t → measure t < measure s)
    (open_ : ∀ s t, body s = some t → stop s = false) (reached : ahead body n s = some t) :
    run stop body measure s = run stop body measure t := by
  induction n generalizing s with
  | zero => cases reached; rfl
  | succ n ih =>
    obtain ⟨m,first,rest⟩ := Option.bind_eq_some_iff.mp reached
    rw [runUnfold shrinks,open_ s m first,first]
    exact ih rest

end Apixis.Loop
