/-
Reading expressions by operator power.  The rules are given over `inner`, the way a whole expression
of some power is read; `expression` ties the knot.  An expression counts as open while it is read,
and the room that is left for opening further ones bounds the recursion.
-/
import ExprLang.Parser.Statement
import ExprLang.Text.Decimal

namespace ExprLang

namespace Rule

open ParseM

variable {σ : Type} [TokenSupply σ] [Repetition σ] (inner : Power → ParseM σ Expr)

def ident : ParseM σ Expr := do
  let name ← inspect Parser.currentIdent
  pure (.ident name)

/-- The current token as a number, whatever its kind. -/
def integer : ParseM σ Expr := do
  let token ← inspect Parser.current
  match readInteger? token.lexeme with
  | some value => pure (.integer token value)
  | none => fail (.badInteger token.lexeme)

/-- A truth value is true exactly if the current token is the keyword for true. -/
def boolean : ParseM σ Expr := do
  let token ← inspect Parser.current
  pure (.boolean token (decide (token.kind = .kwTrue)))

def unary : ParseM σ Expr := do
  let token ← inspect Parser.current
  advance
  let operand ← inner .unary
  pure (.unary token token.lexeme operand)

/-- An expression in parentheses.  Also where it cannot be read, a closing parenthesis that follows
is consumed. -/
def grouped : ParseM σ Expr := do
  advance
  let expression ← attempt (inner .lowest)
  expect .closeParen
  answer expression

/-- The other arm of a conditional, from the token in front of it on. -/
def otherArm : ParseM σ (Option Block) := do
  advance
  expect .openCurly
  let arm ← always (block inner)
  pure (some arm)

/-- The other arm of a conditional, when there is one. -/
def alternative : ParseM σ (Option Block) := do
  if ← inspect (Parser.peekIs .kwElse) then
    otherArm inner
  else
    pure none

/-- The rest of a conditional behind its condition: one or two blocks, which are read also where the
condition could not be. -/
def arms (token : Token) (condition : Option Expr) : ParseM σ Expr := do
  expect .openCurly
  let consequent ← always (block inner)
  let other ← alternative inner
  let condition ← answer condition
  pure (.conditional token condition consequent other)

/-- The rest of a conditional from the opening parenthesis of its condition on. -/
def condition (token : Token) : ParseM σ Expr := do
  advance
  let condition ← attempt (inner .lowest)
  expect .closeParen
  arms inner token condition

/-- A condition in parentheses and one or two blocks. -/
def conditional : ParseM σ Expr := do
  let token ← inspect Parser.current
  expect .openParen
  condition inner token

/-- One name that has to come next. -/
def nextIdent : ParseM σ Ident := do
  expect .identifier
  inspect Parser.currentIdent

/-- One more part behind a comma, put to those found before. -/
def onePart {α : Type} (part : ParseM σ α) (found : List α) : ParseM σ (List α) := do
  advance
  let next ← part
  pure (found ++ [next])

/-- The rest of a list behind a part: more parts, as long as a comma follows, and the closing
parenthesis. -/
def listRest {α : Type} (part : ParseM σ α) (found : List α) : ParseM σ (List α) := do
  let found ← Repetition.improveWhile (Parser.peekIs .comma) (onePart part) found
  expect .closeParen
  pure found

/-- Parts with commas between them, up to a closing parenthesis. -/
def listOf {α : Type} (part : ParseM σ α) : ParseM σ (List α) := do
  if ← inspect (Parser.peekIs .closeParen) then
    advance
    pure []
  else
    let first ← part
    listRest part [first]

/-- Names with commas between them, up to a closing parenthesis. -/
def parameters : ParseM σ (List Ident) :=
  listOf nextIdent

def function : ParseM σ Expr := do
  let token ← inspect Parser.current
  expect .openParen
  let names ← parameters
  expect .openCurly
  let body ← always (block inner)
  pure (.function token names body)

/-- One expression that begins behind the current token. -/
def argument : ParseM σ Expr := do
  advance
  inner .lowest

/-- Expressions with commas between them, up to a closing parenthesis. -/
def arguments : ParseM σ (List Expr) :=
  listOf (argument inner)

/-- A binary operation with the current token as its operator.  The right operand is read at the
operator's own power, so operators of equal power group to the left. -/
def binary (left : Expr) : ParseM σ Expr := do
  let token ← inspect Parser.current
  let power ← inspect Parser.currentPower
  advance
  let right ← inner power
  pure (.binary token token.lexeme left right)

def call (callee : Expr) : ParseM σ Expr := do
  let token ← inspect Parser.current
  let found ← arguments inner
  pure (.call token callee found)

def startBy : StartRule → ParseM σ Expr
  | .ident => ident
  | .integer => integer
  | .boolean => boolean
  | .unary => unary inner
  | .grouped => grouped inner
  | .conditional => conditional inner
  | .function => function inner

def operatorBy (left : Expr) : OperatorRule → ParseM σ Expr
  | .binary => binary inner left
  | .call => call inner left

/-- Whether the lookahead continues an expression read at a given power. -/
def continues (power : Power) (state : Parser σ) : Bool :=
  !state.peekIs .semicolon && decide (power < state.peekPower)

/-- Takes the operator in the lookahead together with what is behind it. -/
def extend (left : Expr) : ParseM σ Expr := do
  let operator ← inspect fun state => state.grammar.operator state.peek.kind
  match operator with
  | none => pure left
  | some (_, rule) =>
      advance
      operatorBy inner left rule

/-- Extends an expression by every operator that binds more tightly than a given power. -/
def absorb (power : Power) (left : Expr) : ParseM σ Expr :=
  Repetition.improveWhile (continues power) (extend inner) left

/-- An expression from its first token on, without counting it as open. -/
def start : ParseM σ Expr := do
  let kind ← inspect fun state => state.current.kind
  let rule ← inspect fun state => state.grammar.startRule kind
  match rule with
  | none => fail (.noExpression kind)
  | some rule => startBy inner rule

/-- An expression of a given power, without counting it as open. -/
def body (power : Power) : ParseM σ Expr := do
  let left ← start inner
  absorb inner power left

/-- An expression of a given power with room for so many open expressions, itself included. -/
def expressionWithin : Nat → Power → ParseM σ Expr
  | 0, _ => nested (answer none)
  | room + 1, power => nested (body (expressionWithin room) power)

end Rule

variable {σ : Type} [TokenSupply σ]

/-- Reads an expression of a given power. -/
def expression (power : Power) : ParseM σ Expr := fun state =>
  Rule.expressionWithin (state.limit - state.depth) power state

end ExprLang
