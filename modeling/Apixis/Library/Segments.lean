import Mathlib.Data.List.Basic
import Mathlib.Order.Defs.PartialOrder

/-! A log kept in numbered segments: a writer goes on to the next one where a segment is
full, and a reader takes them one after the other. -/
namespace Apixis.Segments

variable {α : Type} {full : List α → Bool} {segment : Nat → Option (List α)} {i j k n : Nat}
  {text more : List α}

/- All segments below `i` are there and full. -/
def Closed (full : List α → Bool) (segment : Nat → Option (List α)) (i : Nat) : Prop :=
  ∀ j < i, ∃ text, segment j = some text ∧ full text = true

/- No segment is begun before the ones below it are full. -/
def Gapless (full : List α → Bool) (segment : Nat → Option (List α)) : Prop :=
  ∀ i text, segment i = some text → Closed full segment i

def Open (full : List α → Bool) (segment : Nat → Option (List α)) (i : Nat) : Prop :=
  ∀ text, segment i = some text → full text = false

def seek (full : List α → Bool) (segment : Nat → Option (List α)) : Nat → Nat → Option Nat
  | 0, _ => none
  | fuel+1, i => match segment i with
    | none => some i
    | some text => if full text then seek full segment fuel (i+1) else some i

def put (segment : Nat → Option (List α)) (i : Nat) (text : List α) : Nat → Option (List α) :=
  fun j => if j = i then some text else segment j

def contents (segment : Nat → Option (List α)) : Nat → List α
  | 0 => []
  | n+1 => contents segment n ++ (segment n).getD []

theorem closedZero : Closed full segment 0 := fun _ below => absurd below (Nat.not_lt_zero _)

theorem closedNext (closed : Closed full segment i) (there : segment i = some text) (isFull : full text = true) :
    Closed full segment (i+1) := by
  intro j below
  rcases Nat.lt_succ_iff_lt_or_eq.mp below with before | rfl
  · exact closed j before
  · exact ⟨text,there,isFull⟩

theorem seekSound {fuel : Nat} (found : seek full segment fuel i = some k) (closed : Closed full segment i) :
    Closed full segment k ∧ Open full segment k := by
  induction fuel generalizing i with
  | zero => cases found
  | succ fuel ih =>
    simp only [seek] at found
    split at found
    · rename_i missing
      cases Option.some.inj found
      exact ⟨closed,fun text there => by cases missing.symm.trans there⟩
    · rename_i text there
      split at found
      · rename_i isFull
        exact ih found (closedNext closed there isFull)
      · rename_i room
        cases Option.some.inj found
        refine ⟨closed,?_⟩
        intro other same
        cases Option.some.inj (there.symm.trans same)
        simpa using room

theorem seekEnds (full : List α → Bool) {fuel : Nat} (missing : segment n = none) (reach : i ≤ n) (enough : n < i + fuel) :
    ∃ k, seek full segment fuel i = some k := by
  induction fuel generalizing i with
  | zero => omega
  | succ fuel ih =>
    simp only [seek]
    split
    · exact ⟨i,rfl⟩
    · rename_i text there
      split
      · have later : i ≠ n := by
          rintro rfl
          cases missing.symm.trans there
        exact ih (by omega) (by omega)
      · exact ⟨i,rfl⟩

/- After the segment one may write to there is none. -/
theorem lastOpen (gapless : Gapless full segment) (room : Open full segment k) (later : k < j) :
    segment j = none := by
  refine Option.eq_none_iff_forall_ne_some.mpr ?_
  intro text there
  obtain ⟨old,before,isFull⟩ := gapless j text there k later
  cases isFull.symm.trans (room old before)

theorem putSame : put segment i text i = some text := if_pos rfl

theorem putOther (other : j ≠ i) : put segment i text j = segment j := if_neg other

theorem closedPut (closed : Closed full segment k)
    (grows : ∀ old, segment i = some old → full old = true → full text = true) :
    Closed full (put segment i text) k := by
  intro j below
  obtain ⟨old,there,isFull⟩ := closed j below
  by_cases same : j = i
  · subst same
    exact ⟨text,putSame,grows old there isFull⟩
  · exact ⟨old,(putOther same).trans there,isFull⟩

theorem gaplessPut (gapless : Gapless full segment) (closed : Closed full segment i)
    (grows : ∀ old, segment i = some old → full old = true → full text = true) :
    Gapless full (put segment i text) := by
  intro j some_ there
  by_cases same : j = i
  · subst same
    exact closedPut closed grows
  · rw [putOther same] at there
    exact closedPut (gapless j some_ there) grows

theorem contentsCongr {before after : Nat → Option (List α)} (same : ∀ j < n, before j = after j) :
    contents before n = contents after n := by
  induction n with
  | zero => rfl
  | succ n ih =>
    rw [contents,contents,ih (fun j below => same j (Nat.lt_succ_of_lt below)),same n (Nat.lt_succ_self n)]

theorem contentsMissing (missing : ∀ j, n ≤ j → segment j = none) (more : n ≤ k) :
    contents segment k = contents segment n := by
  induction k with
  | zero =>
    cases Nat.le_zero.mp more
    rfl
  | succ k ih =>
    rcases Nat.lt_or_eq_of_le more with before | rfl
    · have reach := Nat.le_of_lt_succ before
      rw [contents,missing k reach,Option.getD_none,List.append_nil,ih reach]
    · rfl

theorem contentsPut (missing : ∀ j, k < j → segment j = none) (inside : k < n) :
    contents (put segment k ((segment k).getD [] ++ more)) n = contents segment n ++ more := by
  have after : ∀ j, k+1 ≤ j → put segment k ((segment k).getD [] ++ more) j = none := by
    intro j later
    rw [putOther (by omega)]
    exact missing j later
  rw [contentsMissing after inside,contentsMissing missing inside,contents,contents,putSame,
    contentsCongr (fun j below => putOther (Nat.ne_of_lt below)),List.append_assoc]
  rfl

section Chapters
variable {δ κ : Type} [Preorder κ] {days : List δ} {old new : δ → List α}

/- What is added to the last chapter of each reading is read after all of it. -/
theorem chaptersAppend (rank : δ → κ) (sorted : (days.map rank).Pairwise (· < ·))
    (later : ∀ d ∈ days, ∀ e ∈ days, new d ≠ [] → old e ≠ [] → rank e ≤ rank d) :
    days.flatMap (fun d => old d ++ new d) = days.flatMap old ++ days.flatMap new := by
  induction days with
  | nil => rfl
  | cons d rest ih =>
    obtain ⟨first,sorted⟩ := List.pairwise_cons.mp sorted
    have tail := ih sorted (fun e member f other =>
      later e (List.mem_cons_of_mem _ member) f (List.mem_cons_of_mem _ other))
    have swap : new d ++ rest.flatMap old = rest.flatMap old ++ new d := by
      by_cases nothing : new d = []
      · rw [nothing,List.nil_append,List.append_nil]
      · have empty : rest.flatMap old = [] := by
          refine List.flatMap_eq_nil_iff.mpr ?_
          intro e member
          by_contra some_
          exact absurd (later d List.mem_cons_self e (List.mem_cons_of_mem _ member) nothing some_)
            (not_le_of_gt (first (rank e) (List.mem_map_of_mem member)))
        rw [empty,List.append_nil,List.nil_append]
    rw [List.flatMap_cons,List.flatMap_cons,List.flatMap_cons,tail,List.append_assoc,
      ← List.append_assoc (new d),swap]
    simp only [List.append_assoc]

variable [DecidableEq δ]

theorem chapterOnce {β : Type} {x : β} {d : δ} (rank : δ → κ) (sorted : (days.map rank).Pairwise (· < ·)) (known : d ∈ days) :
    days.flatMap (fun e => if d = e then [x] else []) = [x] := by
  induction days with
  | nil => cases known
  | cons e rest ih =>
    obtain ⟨first,sorted⟩ := List.pairwise_cons.mp sorted
    rw [List.flatMap_cons]
    by_cases same : d = e
    · subst same
      have none_ : rest.flatMap (fun e => if d = e then [x] else []) = [] := by
        refine List.flatMap_eq_nil_iff.mpr ?_
        intro e member
        refine if_neg ?_
        rintro rfl
        exact absurd (first (rank d) (List.mem_map_of_mem member)) (lt_irrefl _)
      rw [if_pos rfl,none_,List.append_nil]
    · rw [if_neg same,List.nil_append]
      exact ih sorted ((List.mem_cons.mp known).resolve_left same)

theorem chaptersInOrder {β : Type} {items : List β} (rank : δ → κ) (day : β → δ) (sorted : (days.map rank).Pairwise (· < ·))
    (ordered : (items.map (fun x => rank (day x))).Pairwise (· ≤ ·)) (known : ∀ x ∈ items, day x ∈ days) :
    days.flatMap (fun d => items.filter (fun x => day x = d)) = items := by
  induction items with
  | nil => simp
  | cons x rest ih =>
    rw [List.map_cons,List.pairwise_cons] at ordered
    have tail := ih ordered.2 (fun y member => known y (List.mem_cons_of_mem _ member))
    have split : (fun d => (x :: rest).filter (fun y => day y = d)) =
        fun d => (if day x = d then [x] else []) ++ rest.filter (fun y => day y = d) := by
      funext d
      by_cases same : day x = d <;> simp [same]
    rw [split,chaptersAppend rank sorted,tail,chapterOnce rank sorted (known x List.mem_cons_self)]
    · rfl
    · intro d _ e _ some_ own
      obtain ⟨y,inside⟩ := List.exists_mem_of_ne_nil _ some_
      obtain ⟨member,same⟩ := List.mem_filter.mp inside
      have first : day x = e := by
        by_contra other
        exact own (if_neg other)
      rw [← first,← of_decide_eq_true same]
      exact ordered.1 (rank (day y)) (List.mem_map_of_mem (f := fun x => rank (day x)) member)

end Chapters

end Apixis.Segments
