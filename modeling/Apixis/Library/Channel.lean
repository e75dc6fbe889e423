import Mathlib.Data.List.Basic

/-! A queue that is closed by a marker behind the last item: what is put into it
comes out in the same order, and nothing is put behind the marker. -/
namespace Apixis

inductive Channel.Item (α : Type) where
  | chunk (x : α)
  | stop
  deriving DecidableEq, Repr

structure Channel (α : Type) where
  queue : List (Channel.Item α)
  closed : Bool
  deriving DecidableEq, Repr

namespace Channel
variable {α : Type}

def new : Channel α := ⟨[],false⟩

def put (c : Channel α) (item : Item α) : Channel α := {c with queue := c.queue ++ [item]}

/- A closed channel takes nothing. -/
def send (c : Channel α) (x : α) : Option (Channel α) := if c.closed then none else some (c.put (.chunk x))

/- What closing puts: nothing the second time. -/
def closing (c : Channel α) : List (Item α) := if c.closed then [] else [.stop]

def close (c : Channel α) : Channel α := if c.closed then c else {c.put .stop with closed := true}

def take (c : Channel α) : Option (Item α × Channel α) :=
  match c.queue with
  | [] => none
  | item :: rest => some (item,{c with queue := rest})

def Item.chunk? : Item α → Option α
  | .chunk x => some x
  | .stop => none

def Item.isStop : Item α → Bool
  | .chunk _ => false
  | .stop => true

def chunks (items : List (Item α)) : List α := items.filterMap Item.chunk?

/- All that has been put into a channel, and what has been got out of it. -/
structure Sound (c : Channel α) (put got : List (Item α)) : Prop where
  order : put = got ++ c.queue
  form : ∃ sent : List α, put = sent.map Item.chunk ++ (if c.closed then [.stop] else [])

variable {c d : Channel α} {put got : List (Item α)} {item : Item α} {x : α}

theorem newSound : Sound (new : Channel α) [] [] := ⟨rfl,[],rfl⟩

@[simp] theorem closeClosed (c : Channel α) : c.close.closed = true := by
  unfold close
  split
  · assumption
  · rfl

theorem sendSound (sound : Sound c put got) (sent : c.send x = some d) :
    Sound d (put ++ [.chunk x]) got ∧ d.closed = c.closed := by
  obtain ⟨order,before,form⟩ := sound
  unfold send at sent
  split at sent <;> try contradiction
  rename_i open_
  cases Option.some.inj sent
  refine ⟨⟨?_,before ++ [x],?_⟩,rfl⟩
  · rw [order,List.append_assoc]
    rfl
  · rw [form]
    simp [Channel.put,open_]

theorem closeSound (sound : Sound c put got) : Sound c.close (put ++ c.closing) got := by
  unfold close closing
  split
  · rw [List.append_nil]
    exact sound
  · rename_i open_
    obtain ⟨order,before,form⟩ := sound
    refine ⟨?_,before,?_⟩
    · rw [order,List.append_assoc]
      rfl
    · rw [form]
      simp [open_]

theorem takeSound (sound : Sound c put got) (taken : c.take = some (item,d)) :
    Sound d put (got ++ [item]) ∧ d.closed = c.closed := by
  obtain ⟨order,form⟩ := sound
  unfold take at taken
  split at taken <;> try contradiction
  rename_i first rest queue
  cases Option.some.inj taken
  refine ⟨⟨?_,form⟩,rfl⟩
  rw [order,queue,List.append_assoc]
  rfl

theorem gotPrefix (sound : Sound c put got) : chunks got <+: chunks put := by
  rw [sound.order]
  exact ⟨chunks c.queue,(List.filterMap_append).symm⟩

/- Closing marks the end once, however often it is done. -/
theorem stopOnce (sound : Sound c put got) : put.countP Item.isStop = if c.closed then 1 else 0 := by
  obtain ⟨_,sent,form⟩ := sound
  have none_ : (sent.map Item.chunk).countP Item.isStop = 0 := by
    rw [List.countP_eq_zero]
    intro item member
    obtain ⟨x,_,rfl⟩ := List.mem_map.mp member
    exact Bool.false_ne_true
  rw [form,List.countP_append,none_]
  split <;> rfl

theorem noStop (sent : List α) : Item.stop ∉ sent.map Item.chunk := by
  intro member
  obtain ⟨x,_,same⟩ := List.mem_map.mp member
  cases same

/- Whoever has got the marker has got everything, and the channel is closed. -/
theorem gotStop (sound : Sound c put got) (stopped : .stop ∈ got) : got = put ∧ c.closed = true := by
  obtain ⟨order,sent,form⟩ := sound
  have inside : .stop ∈ put := order ▸ List.mem_append_left _ stopped
  cases closed : c.closed with
  | false =>
    rw [form,closed,if_neg Bool.false_ne_true,List.append_nil] at inside
    exact absurd inside (noStop sent)
  | true =>
    refine ⟨?_,rfl⟩
    have whole : got ++ c.queue = sent.map Item.chunk ++ [.stop] := by rw [← order,form,closed,if_pos rfl]
    by_cases empty : c.queue = []
    · rw [order,empty,List.append_nil]
    · have before := congrArg List.dropLast whole
      rw [List.dropLast_append_of_ne_nil empty,List.dropLast_concat] at before
      exact absurd (before ▸ List.mem_append_left _ stopped) (noStop sent)

end Channel
end Apixis
