/-
How alike two words are, so that a mistyped word can be told from a wrong one.  Equal characters
match when their places in the two words are not too far apart.  The similarity is the mean of three
shares: the matched characters of the first word, those of the second, and the matches that come in
the same order in both.
-/
namespace ExprLang

/-- The first place in the second word, not yet taken and within reach, that matches a character at
place `i` of the first. -/
def partner? (reach : Nat) (second : List Char) (i : Nat) (c : Char) (taken : List Nat) :
    Option Nat :=
  (List.range second.length).find? fun j =>
    i ≤ j + reach && j ≤ i + reach && second[j]? == some c && !taken.contains j

/-- The matched characters of the first word from place `i` on, each with the place of its
partner. -/
def partners (reach : Nat) (second : List Char) : Nat → List Char → List Nat → List (Char × Nat)
  | _, [], _ => []
  | i, c :: rest, taken =>
      match partner? reach second i c taken with
      | none => partners reach second (i + 1) rest taken
      | some j => (c, j) :: partners reach second (i + 1) rest (j :: taken)

/-- The number of matches and the number of them that are swapped: half the places at which the
matched characters of the two words, each in its own order, differ. -/
def matchCounts (first second : List Char) : Nat × Nat :=
  let reach := max first.length second.length / 2 - 1
  let pairs := partners reach second 0 first []
  let inSecond := (List.range second.length).filter (pairs.map Prod.snd).contains
  let differing := (pairs.zip inSecond).countP fun (pair, j) => second[j]? != some pair.1
  (pairs.length, differing / 2)

/-- The similarity of two words, between zero and one. -/
def similarity (first second : String) : Float :=
  let (matched, swapped) := matchCounts first.toList second.toList
  let share (part whole : Nat) : Float := part.toFloat / whole.toFloat
  if matched = 0 then 0
  else
    (share matched first.length + share matched second.length +
      share (matched - swapped) matched) / 3

/-- The candidate most like a word, among those whose similarity to it is above seven tenths; of
candidates equally like it the last. -/
def mostAlike? (word : String) (candidates : List String) : Option String :=
  (candidates.filter fun candidate => similarity word candidate > 0.7).foldl
    (fun best candidate =>
      match best with
      | none => some candidate
      | some held =>
          if similarity word candidate ≥ similarity word held then some candidate else best)
    none

example : matchCounts "token".toList "tokens".toList = (5, 0) := by decide +kernel
example : matchCounts "hlep".toList "help".toList = (4, 1) := by decide +kernel

end ExprLang
