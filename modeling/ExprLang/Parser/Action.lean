/-
What a parser does.  An action takes a parser to the parser behind it and either answers or gives
up; what was consumed and recorded stays so in both cases.
-/
import ExprLang.Parser.State

namespace ExprLang

/-- An action on a parser.  No answer means that it gave up. -/
def ParseM (σ α : Type) : Type :=
  Parser σ → Option α × Parser σ

namespace ParseM

variable {σ α β : Type}

@[inline]
protected def pure (answer : α) : ParseM σ α := fun state =>
  (some answer, state)

@[inline]
protected def bind (action : ParseM σ α) (next : α → ParseM σ β) : ParseM σ β := fun state =>
  match action state with
  | (none, after) => (none, after)
  | (some answer, after) => next answer after

instance : Monad (ParseM σ) where
  pure := ParseM.pure
  bind := ParseM.bind

@[simp]
theorem pure_apply (answer : α) (state : Parser σ) :
    (pure answer : ParseM σ α) state = (some answer, state) :=
  rfl

/-- An answer is handed on together with the parser behind the action; nothing follows an action
that gave up. -/
theorem bind_apply (action : ParseM σ α) (next : α → ParseM σ β) (state : Parser σ) :
    (action >>= next) state =
      match action state with
      | (none, after) => (none, after)
      | (some answer, after) => next answer after :=
  rfl

theorem bind_of_none {action : ParseM σ α} {next : α → ParseM σ β} {state after : Parser σ}
    (haction : action state = (none, after)) : (action >>= next) state = (none, after) := by
  rw [bind_apply, haction]

theorem bind_of_some {action : ParseM σ α} {next : α → ParseM σ β} {state after : Parser σ}
    {answer : α} (haction : action state = (some answer, after)) :
    (action >>= next) state = next answer after := by
  rw [bind_apply, haction]

/-- Doing three things in a row is the same however they are grouped. -/
theorem bind_assoc_apply {γ : Type} (action : ParseM σ α) (next : α → ParseM σ β)
    (last : β → ParseM σ γ) (state : Parser σ) :
    (action >>= next >>= last) state = (action >>= fun answer => next answer >>= last) state := by
  simp only [bind_apply]
  rcases action state with ⟨answer, after⟩
  cases answer with
  | none => rfl
  | some answer => rfl

/-- Looks at the parser without changing it. -/
def inspect (view : Parser σ → α) : ParseM σ α := fun state =>
  (some (view state), state)

/-- An action that cannot give up. -/
def always (change : Parser σ → α × Parser σ) : ParseM σ α := fun state =>
  (some (change state).1, (change state).2)

/-- Carries on after an action, whether or not it gave up. -/
def attempt (action : ParseM σ α) : ParseM σ (Option α) :=
  always action

/-- Answers if there is an answer, else gives up. -/
def answer (result : Option α) : ParseM σ α := fun state =>
  (result, state)

@[simp]
theorem inspect_apply (view : Parser σ → α) (state : Parser σ) :
    inspect view state = (some (view state), state) :=
  rfl

@[simp]
theorem always_apply (change : Parser σ → α × Parser σ) (state : Parser σ) :
    always change state = (some (change state).1, (change state).2) :=
  rfl

@[simp]
theorem attempt_apply (action : ParseM σ α) (state : Parser σ) :
    attempt action state = (some (action state).1, (action state).2) :=
  rfl

@[simp]
theorem answer_apply (result : Option α) (state : Parser σ) :
    answer result state = (result, state) :=
  rfl

/-- Records an error and gives up. -/
def fail (error : SyntaxError) : ParseM σ α := fun state =>
  (none, state.record error)

/-- Runs an action as one more open expression.  Without room the action is not run. -/
def nested (action : ParseM σ α) : ParseM σ α := fun state =>
  match state.enter with
  | (false, after) => (none, after)
  | (true, inside) =>
      let (result, after) := action inside
      (result, after.leave)

variable [TokenSupply σ]

def advance : ParseM σ Unit := fun state =>
  (some (), state.advance)

/-- Moves on to a lookahead of the given kind.  Any other kind is an error. -/
def expect (kind : TokenKind) : ParseM σ Unit := fun state =>
  if state.peekIs kind then (some (), state.advance)
  else (none, state.record (.unexpectedToken kind state.peek.kind))

/-- Improves an answer by a step for as long as a condition holds of the parser.  A step that leaves
as many tokens as before would be taken for ever; it is the last one and the parser has stalled. -/
def improveWhile (more : Parser σ → Bool) (step : α → ParseM σ α) (start : α) : ParseM σ α :=
  fun state =>
    if more state then
      match step start state with
      | (none, after) => (none, after)
      | (some better, after) =>
          if after.ahead < state.ahead then improveWhile more step better after
          else (some better, { after with stalled := true })
    else (some start, state)
termination_by state => state.ahead

/-- The answers of an action that is run again and again, with one advance behind each run, for as
long as a condition holds of the parser.  Where it gives up there is no answer.  A round that leaves
as many tokens as before is the last one, and the parser has stalled. -/
def answersWhile (more : Parser σ → Bool) (action : ParseM σ α) (state : Parser σ) :
    List α × Parser σ :=
  if more state then
    let (result, behind) := action state
    let after := behind.advance
    if after.ahead < state.ahead then
      let (later, final) := answersWhile more action after
      (result.toList ++ later, final)
    else (result.toList, { after with stalled := true })
  else ([], state)
termination_by state.ahead

theorem improveWhile_of_not {more : Parser σ → Bool} {step : α → ParseM σ α} {start : α}
    {state : Parser σ} (hmore : more state = false) :
    improveWhile more step start state = (some start, state) := by
  rw [improveWhile, hmore]
  rfl

theorem answersWhile_of_not {more : Parser σ → Bool} {action : ParseM σ α} {state : Parser σ}
    (hmore : more state = false) : answersWhile more action state = ([], state) := by
  rw [answersWhile, hmore]
  rfl

end ParseM

/-- A way to carry out repetitions, over which the rules are given. -/
class Repetition (σ : Type) where
  /-- Improves an answer by a step for as long as a condition holds of the parser. -/
  improveWhile {α : Type} (more : Parser σ → Bool) (step : α → ParseM σ α) (start : α) : ParseM σ α
  /-- The answers of an action that is run again and again, with one advance behind each run, for as
  long as a condition holds of the parser. -/
  answersWhile {α : Type} (more : Parser σ → Bool) (action : ParseM σ α) (state : Parser σ) :
    List α × Parser σ

namespace Repetition

variable {σ α : Type} [TokenSupply σ]

/-- Every round has to leave fewer tokens ahead, or else the repetition is given up. -/
instance guarded : Repetition σ where
  improveWhile := ParseM.improveWhile
  answersWhile := ParseM.answersWhile

@[simp]
theorem improveWhile_guarded (more : Parser σ → Bool) (step : α → ParseM σ α) (start : α) :
    improveWhile more step start = ParseM.improveWhile more step start :=
  rfl

@[simp]
theorem answersWhile_guarded (more : Parser σ → Bool) (action : ParseM σ α) (state : Parser σ) :
    answersWhile more action state = ParseM.answersWhile more action state :=
  rfl

end Repetition

end ExprLang
