/-
The operations by which a parser can be worked step by step, and what each one answers.
-/
import ExprLang.Parse
import ExprLang.Tree.Equality

namespace ExprLang

/-- A single operation on a parser.  The rules for statements and expressions apply to the current
token, whatever its kind. -/
inductive Operation
  | advance
  | expect (kind : TokenKind)
  | record (error : SyntaxError)
  | enter
  | leave
  | expression (power : Power)
  | start (rule : StartRule)
  | operator (rule : OperatorRule) (left : Expr)
  | anyStatement
  | statement (rule : StatementRule)
  | block
  | program
  | setStatement (kind : TokenKind) (rule : StatementRule)
  | setStart (kind : TokenKind) (rule : StartRule)
  | setOperator (kind : TokenKind) (power : Power) (rule : OperatorRule)

/-- What an operation answers. -/
inductive Outcome
  | done
  | flag (holds : Bool)
  | expression (result : Option Expr)
  | statement (result : Option Stmt)
  | block (result : Block)
  | program (result : Program)
deriving DecidableEq

namespace Operation

variable {σ : Type} [TokenSupply σ]

/-- An expression read by some action. -/
def readExpression (action : ParseM σ Expr) (state : Parser σ) : Outcome × Parser σ :=
  let (result, after) := action state
  (.expression result, after)

/-- A statement read by some action. -/
def readStatement (action : ParseM σ Stmt) (state : Parser σ) : Outcome × Parser σ :=
  let (result, after) := action state
  (.statement result, after)

/-- The answer of an operation and the parser behind it. -/
def run (operation : Operation) (state : Parser σ) : Outcome × Parser σ :=
  match operation with
  | .advance => (.done, state.advance)
  | .expect kind =>
      let (result, after) := ParseM.expect kind state
      (.flag result.isSome, after)
  | .record error => (.done, state.record error)
  | .enter =>
      let (room, after) := state.enter
      (.flag room, after)
  | .leave => (.done, state.leave)
  | .expression power => readExpression (ExprLang.expression power) state
  | .start rule => readExpression (Rule.startBy ExprLang.expression rule) state
  | .operator rule left => readExpression (Rule.operatorBy ExprLang.expression left rule) state
  | .anyStatement => readStatement (Rule.statement ExprLang.expression) state
  | .statement rule => readStatement (Rule.statementBy ExprLang.expression rule) state
  | .block =>
      let (result, after) := Rule.block ExprLang.expression state
      (.block result, after)
  | .program =>
      let (result, after) := parseProgram state
      (.program result, after)
  | .setStatement kind rule =>
      (.done, { state with grammar := state.grammar.withStatement kind rule })
  | .setStart kind rule => (.done, { state with grammar := state.grammar.withStart kind rule })
  | .setOperator kind power rule =>
      (.done, { state with grammar := state.grammar.withOperator kind power rule })

/-- The answers of operations made one after the other, each with the parser behind it. -/
def runAll : List Operation → Parser σ → List (Outcome × Parser σ)
  | [], _ => []
  | operation :: rest, state =>
      let step := operation.run state
      step :: runAll rest step.2

end Operation

end ExprLang
