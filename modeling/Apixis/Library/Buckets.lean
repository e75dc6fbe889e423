import Apixis.Library.Dict
import Mathlib.Data.List.Dedup
import Mathlib.Data.List.Sort

/-! Buckets of items under ordered keys, read from the greatest key down. A
change inside some buckets is invisible to a filter that it does not touch. -/
namespace Apixis.Buckets

variable {κ α : Type}

theorem flatMapFilter {ι : Type} {f : ι → List α} {p : ι → Bool} (l : List ι)
    (empty : ∀ k ∈ l, p k = false → f k = []) : (l.filter p).flatMap f = l.flatMap f := by
  induction l with
  | nil => rfl
  | cons k rest ih =>
    have tail := ih (fun j member => empty j (List.mem_cons_of_mem _ member))
    cases good : p k with
    | true => rw [List.filter_cons_of_pos good,List.flatMap_cons,List.flatMap_cons,tail]
    | false =>
      rw [List.filter_cons_of_neg (by simp [good]),List.flatMap_cons,empty k List.mem_cons_self good,
        tail,List.nil_append]

variable [LinearOrder κ]

def descending (l : List κ) : List κ := l.insertionSort (fun a b => b ≤ a)

def bucket (d : Dict κ (List α)) (k : κ) : List α := (d.get k).getD []

/- Buckets by descending key, then bucket order. -/
def order (d : Dict κ (List α)) : List α := (descending d.keys).flatMap (bucket d)

def occurrences (d : Dict κ (List α)) : List α := d.entries.flatMap Prod.snd

variable {d e : Dict κ (List α)} {k : κ} {x : α} {b : List α}

theorem bucketOf (found : d.get k = some b) : bucket d k = b := by rw [bucket,found]; rfl

theorem bucketNone (k : κ) (missing : k ∉ d.keys) : bucket d k = [] := by
  rw [bucket,Dict.getNone.mpr missing]; rfl

theorem bucketSet (d : Dict κ (List α)) (j k : κ) (b : List α) :
    bucket (d.set k b) j = if j = k then b else bucket d j := by
  unfold bucket
  rw [Dict.getSet]
  split <;> rfl

theorem bucketErase (d : Dict κ (List α)) (j k : κ) :
    bucket (d.erase k) j = if j = k then [] else bucket d j := by
  unfold bucket
  rw [Dict.getErase]
  split <;> rfl

theorem descendingPerm (l : List κ) : (descending l).Perm l := List.perm_insertionSort _ l

theorem descendingStrict {l : List κ} (distinct : l.Nodup) : (descending l).Pairwise (fun a b => b < a) := by
  have sorted : (descending l).Pairwise (fun a b => b ≤ a) := List.pairwise_insertionSort _ l
  have apart := (descendingPerm l).nodup_iff.mpr distinct
  exact (sorted.and apart).imp (fun both => lt_of_le_of_ne both.1 (Ne.symm both.2))

theorem orderOver (l : List κ) (strict : l.Pairwise (fun a b => b < a))
    (covers : ∀ k ∈ d.keys, k ∈ l) : order d = l.flatMap (bucket d) := by
  have apart : l.Nodup := strict.imp (fun less => (ne_of_lt less).symm)
  have same : descending d.keys = l.filter (fun k => k ∈ d.keys) := by
    have perm : (descending d.keys).Perm (l.filter (fun k => k ∈ d.keys)) := by
      refine (descendingPerm _).trans ?_
      refine (List.perm_ext_iff_of_nodup d.keysNodup (apart.filter _)).mpr ?_
      intro k
      rw [List.mem_filter,decide_eq_true_eq]
      exact ⟨fun member => ⟨covers k member,member⟩,And.right⟩
    refine perm.eq_of_pairwise ?_ (descendingStrict d.keysNodup) (strict.filter _)
    intro a b _ _ less more
    exact absurd less (lt_asymm more)
  rw [order,same]
  refine flatMapFilter l ?_
  intro k _ missing
  exact bucketNone k (of_decide_eq_false missing)

theorem orderFilter (p : α → Bool) (same : ∀ k, (bucket d k).filter p = (bucket e k).filter p) :
    (order d).filter p = (order e).filter p := by
  have strict := descendingStrict (List.nodup_dedup (d.keys ++ e.keys))
  have covers : ∀ k, k ∈ d.keys ∨ k ∈ e.keys → k ∈ descending (d.keys ++ e.keys).dedup := by
    intro k member
    rw [(descendingPerm _).mem_iff,List.mem_dedup,List.mem_append]
    exact member
  rw [orderOver _ strict (fun k member => covers k (.inl member)),
    orderOver (d := e) _ strict (fun k member => covers k (.inr member)),
    List.filter_flatMap,List.filter_flatMap]
  exact List.flatMap_congr (fun k _ => same k)

theorem memOrder : x ∈ order d ↔ ∃ k, x ∈ bucket d k := by
  rw [order,List.mem_flatMap]
  constructor
  · intro member
    obtain ⟨k,_,inside⟩ := member
    exact ⟨k,inside⟩
  · intro member
    obtain ⟨k,inside⟩ := member
    refine ⟨k,?_,inside⟩
    rw [(descendingPerm _).mem_iff,← Dict.getIsSome]
    unfold bucket at inside
    cases found : d.get k with
    | none => rw [found] at inside; simp at inside
    | some b => rfl

theorem bucketEntry (d : Dict κ (List α)) (entry : κ × List α) (member : entry ∈ d.entries) :
    bucket d entry.1 = entry.2 := by
  rw [bucket,Dict.memEntry.mpr member]; rfl

theorem orderPerm (d : Dict κ (List α)) : (order d).Perm (occurrences d) := by
  have keys : (order d).Perm (d.keys.flatMap (bucket d)) := (descendingPerm _).flatMap_right _
  have entries : d.keys.flatMap (bucket d) = occurrences d := by
    rw [Dict.keys,List.flatMap_map]
    exact List.flatMap_congr (bucketEntry d)
  rw [← entries]
  exact keys

/- No bucket holds an item twice and no two buckets share one. -/
structure Separate (d : Dict κ (List α)) : Prop where
  each : ∀ k, (bucket d k).Nodup
  apart : ∀ j k x, x ∈ bucket d j → x ∈ bucket d k → j = k

theorem orderNodup (separate : Separate d) : (order d).Nodup := by
  rw [order,List.nodup_flatMap]
  refine ⟨fun k _ => separate.each k,?_⟩
  refine (descendingStrict d.keysNodup).imp ?_
  intro j k less x left right
  exact absurd (separate.apart j k x left right) (ne_of_lt less).symm

theorem occurOnce [DecidableEq α] (separate : Separate d) (member : x ∈ order d) :
    (occurrences d).count x = 1 := by
  rw [← (orderPerm d).count_eq]
  exact List.count_eq_one_of_mem (orderNodup separate) member

end Apixis.Buckets
