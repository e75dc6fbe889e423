import Mathlib.Data.List.Infix

/-! Shell patterns as `fnmatch` reads them: `*`, `?`, `[seq]` and `[!seq]`, everything
else standing for itself. -/
namespace Apixis.Glob

inductive Token where
  | star
  | any
  | lit (c : Char)
  /- A bracket: its parts, between two of which stands the hyphen of a range. -/
  | set (negated : Bool) (chunks : List (List Char))
  deriving DecidableEq, Repr

/- A range from the last character of one part to the first of the next. -/
def between (c : Char) : List (List Char) → Bool
  | left :: right :: rest => (match left.getLast?, right.head? with
      | some low, some high => decide (low ≤ c) && decide (c ≤ high)
      | _, _ => false) || between c (right :: rest)
  | _ => false

def Token.takes (c : Char) : Token → Bool
  | .star => false
  | .any => true
  | .lit d => c == d
  | .set negated chunks => negated != (chunks.any (fun chunk => chunk.contains c) || between c chunks)

def accepts : List Token → List Char → Bool
  | [], text => text.isEmpty
  | .star :: tokens, text => text.tails.any (accepts tokens)
  | token :: tokens, c :: rest => token.takes c && accepts tokens rest
  | _ :: _, [] => false

/- The parts of a bracket: a hyphen counts from the second character on, and after
another hyphen from the third. -/
def cut : Nat → Nat → List Char → List (List Char)
  | 0, _, stuff => [stuff]
  | fuel+1, first, stuff => match (stuff.drop first).idxOf? '-' with
    | none => [stuff]
    | some k => stuff.take (first+k) :: cut fuel 2 (stuff.drop (first+k+1))

/- A hyphen at the end is one of the characters. -/
def hyphen : List (List Char) → List (List Char)
  | [chunk,[]] => [chunk ++ ['-']]
  | chunk :: rest => chunk :: hyphen rest
  | [] => []

/- Ranges that are empty go, with their ends. -/
def prune : List (List Char) → List (List Char)
  | [] => []
  | chunk :: rest => match prune rest with
    | [] => [chunk]
    | next :: others => match chunk.getLast?, next.head? with
      | some low, some high =>
          if high < low then (chunk.dropLast ++ next.tail) :: others else chunk :: next :: others
      | _, _ => chunk :: next :: others

def bracket (stuff : List Char) : Token :=
  match prune (hyphen (cut stuff.length (if stuff.head? = some '!' then 2 else 1) stuff)) with
  | ('!' :: chunk) :: rest => .set true (chunk :: rest)
  | chunks => .set false chunks

/- What a bracket holds, up to the bracket that closes it. The first one does not. -/
def enclosed (rest : List Char) : Option (List Char × List Char) :=
  let mark := rest.takeWhile (· == '!') |>.take 1
  let closer := (rest.drop mark.length).takeWhile (· == ']') |>.take 1
  let body := rest.drop (mark.length + closer.length)
  match body.dropWhile (· != ']') with
  | [] => none
  | _ :: after => some (mark ++ closer ++ body.takeWhile (· != ']'),after)

def translate : Nat → List Char → List Token
  | 0, _ => []
  | _+1, [] => []
  | fuel+1, c :: rest =>
      if c = '*' then .star :: translate fuel rest
      else if c = '?' then .any :: translate fuel rest
      else if c = '[' then match enclosed rest with
        | none => .lit '[' :: translate fuel rest
        | some (stuff,after) => bracket stuff :: translate fuel after
      else .lit c :: translate fuel rest

def fnmatchcase (name pattern : String) : Bool :=
  accepts (translate pattern.toList.length pattern.toList) name.toList

section Spelling
variable {tokens : List Token} {text stem : List Char} {pattern name : String}

inductive Spells : List Token → List Char → Prop where
  | nil : Spells [] []
  | one {token : Token} {tokens : List Token} {c : Char} {rest : List Char} (takes : token.takes c = true)
      (tail : Spells tokens rest) : Spells (token :: tokens) (c :: rest)
  | star {tokens : List Token} {rest : List Char} (skipped : List Char) (tail : Spells tokens rest) :
      Spells (.star :: tokens) (skipped ++ rest)

theorem acceptsSound (accepted : accepts tokens text = true) : Spells tokens text := by
  induction tokens generalizing text with
  | nil =>
    cases text with
    | nil => exact .nil
    | cons c rest => cases accepted
  | cons token tokens ih =>
    cases token with
    | star =>
      obtain ⟨rest,suffix,tail⟩ := List.any_eq_true.mp accepted
      obtain ⟨skipped,rfl⟩ := (List.mem_tails _ _).mp suffix
      exact .star skipped (ih tail)
    | _ =>
      cases text with
      | nil => cases accepted
      | cons c rest =>
        obtain ⟨takes,tail⟩ := (Bool.and_eq_true _ _).mp accepted
        exact .one takes (ih tail)

theorem acceptsComplete (spells : Spells tokens text) : accepts tokens text = true := by
  induction spells with
  | nil => rfl
  | @one token tokens c rest takes tail ih =>
    cases token with
    | star => cases takes
    | _ => exact (Bool.and_eq_true _ _).mpr ⟨takes,ih⟩
  | star skipped tail ih =>
    exact List.any_eq_true.mpr ⟨_,(List.mem_tails _ _).mpr ⟨skipped,rfl⟩,ih⟩

theorem acceptsIff : accepts tokens text = true ↔ Spells tokens text := ⟨acceptsSound,acceptsComplete⟩

theorem spellsStem : Spells (stem.map Token.lit ++ tokens) text ↔ ∃ rest, text = stem ++ rest ∧ Spells tokens rest := by
  induction stem generalizing text with
  | nil => exact ⟨fun spells => ⟨text,rfl,spells⟩,fun ⟨_,same,spells⟩ => same ▸ spells⟩
  | cons c stem ih =>
    constructor
    · intro spells
      cases spells with
      | one takes tail =>
        obtain ⟨rest,rfl,spells⟩ := ih.mp tail
        exact ⟨rest,by rw [eq_of_beq takes]; rfl,spells⟩
    · rintro ⟨rest,rfl,spells⟩
      exact .one (beq_self_eq_true c) (ih.mpr ⟨rest,rfl,spells⟩)

/- A pattern without `*`, `?` and `[`. -/
def Plain (text : List Char) : Prop := ∀ c ∈ text, c ≠ '*' ∧ c ≠ '?' ∧ c ≠ '['

instance (text : List Char) : Decidable (Plain text) := List.decidableBAll _ text

theorem translateStem (plain : Plain stem) (fuel : Nat) :
    translate (stem.length+fuel) (stem ++ text) = stem.map Token.lit ++ translate fuel text := by
  induction stem with
  | nil => rw [List.length_nil,Nat.zero_add]; rfl
  | cons c stem ih =>
    obtain ⟨star,mark,bracket⟩ := plain c List.mem_cons_self
    have tail := ih (fun d member => plain d (List.mem_cons_of_mem _ member))
    rw [List.length_cons,Nat.add_right_comm,List.cons_append,translate,if_neg star,if_neg mark,if_neg bracket,tail]
    rfl

theorem plainMatches (plain : Plain pattern.toList) : fnmatchcase name pattern = true ↔ name = pattern := by
  have tokens := @translateStem [] pattern.toList plain 0
  rw [List.append_nil,Nat.add_zero] at tokens
  rw [fnmatchcase,tokens,acceptsIff,spellsStem]
  constructor
  · rintro ⟨rest,same,spells⟩
    cases spells
    rw [List.append_nil] at same
    exact String.toList_injective same
  · rintro rfl
    exact ⟨[],(List.append_nil _).symm,.nil⟩

theorem stemMatches (plain : Plain pattern.toList) :
    fnmatchcase name (pattern ++ "*") = true ↔ pattern.toList <+: name.toList := by
  have tokens := @translateStem ['*'] pattern.toList plain 1
  have star : (pattern ++ "*").toList = pattern.toList ++ ['*'] := String.toList_append
  rw [fnmatchcase,star,List.length_append,List.length_singleton,tokens,acceptsIff,spellsStem]
  constructor
  · rintro ⟨rest,same,_⟩
    exact ⟨rest,same.symm⟩
  · rintro ⟨rest,same⟩
    refine ⟨rest,same.symm,?_⟩
    have spells := Spells.star rest .nil
    rwa [List.append_nil] at spells

end Spelling

example : fnmatchcase "graph-7" "graph[!a-z][b-a5-8]" = true := by decide
example : fnmatchcase "[x" "[x" = true ∧ fnmatchcase "]" "[]a]" = true ∧ fnmatchcase "a-" "?[a-]" = true := by decide

end Apixis.Glob
