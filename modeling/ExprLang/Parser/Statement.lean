/-
Reading statements and blocks.  The rules are given over `inner`, the way a whole expression of some
power is read, because expressions in turn contain blocks, and over the way repetitions are carried
out.  Every rule begins with its first token current and ends with its last token current.
-/
import ExprLang.Parser.Action

namespace ExprLang

namespace Rule

open ParseM

variable {σ : Type} [TokenSupply σ] (inner : Power → ParseM σ Expr)

/-- A semicolon behind a statement belongs to it and may be missing. -/
def skipSemicolon : ParseM σ Unit := fun state =>
  (some (), if state.peekIs .semicolon then state.advance else state)

/-- The rest of a binding, from the assignment on.  Where the value cannot be read the binding
stands without one. -/
def assignment (token : Token) (name : Ident) : ParseM σ Stmt := do
  expect .assign
  advance
  let value ← attempt (inner .lowest)
  skipSemicolon
  pure (.binding token name value)

/-- A binding of a name to a value. -/
def binding : ParseM σ Stmt := do
  let token ← inspect Parser.current
  expect .identifier
  let name ← inspect Parser.currentIdent
  assignment inner token name

/-- A return of a value.  Where the value cannot be read the return stands without one. -/
def returning : ParseM σ Stmt := do
  let token ← inspect Parser.current
  advance
  let value ← attempt (inner .lowest)
  skipSemicolon
  pure (.returning token value)

/-- An expression in place of a statement.  Where it cannot be read there is no statement, but a
semicolon is skipped all the same. -/
def expressionStatement : ParseM σ Stmt := do
  let token ← inspect Parser.current
  let value ← attempt (inner .lowest)
  skipSemicolon
  let expression ← answer value
  pure (.expression token expression)

def statementBy : StatementRule → ParseM σ Stmt
  | .binding => binding inner
  | .returning => returning inner
  | .expression => expressionStatement inner

/-- A statement, by the rule for its first token; without a rule it is an expression. -/
def statement : ParseM σ Stmt := do
  let rule ← inspect fun state => state.grammar.statementRule state.current.kind
  statementBy inner (rule.getD .expression)

variable [Repetition σ]

/-- Statements up to the end of input.  Those that cannot be read are left out. -/
def statements : Parser σ → List Stmt × Parser σ :=
  Repetition.answersWhile (fun state => !state.currentIs .eof) (statement inner)

/-- A block, from its opening brace to its closing one.  Statements that cannot be read are left
out; the end of input ends the block too, as an error. -/
def block (state : Parser σ) : Block × Parser σ :=
  let (statements, after) :=
    Repetition.answersWhile (fun state => !state.currentIs .closeCurly && !state.currentIs .eof)
      (statement inner) state.advance
  (⟨state.current, statements⟩,
    if after.currentIs .eof then after.record (.unexpectedToken .closeCurly .eof) else after)

end Rule

end ExprLang
