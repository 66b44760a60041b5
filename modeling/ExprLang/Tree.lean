/-
Trees of programs.  A node keeps the token it is known by next to the parts that its meaning and its
text are taken from, so a tree can be built by hand with parts that disagree with its tokens.
-/
import ExprLang.Token

namespace ExprLang

/-- A name where it is used or introduced. -/
structure Ident where
  token : Token
  name : String
deriving DecidableEq

mutual

/-- Expressions.  The token of a call is its opening parenthesis; that of a unary or binary
expression is the operator. -/
inductive Expr
  | ident (ident : Ident)
  | integer (token : Token) (value : Int64)
  | boolean (token : Token) (value : Bool)
  | unary (token : Token) (operator : String) (operand : Expr)
  | binary (token : Token) (operator : String) (left right : Expr)
  | conditional (token : Token) (condition : Expr) (consequent : Block)
      (alternative : Option Block)
  | function (token : Token) (parameters : List Ident) (body : Block)
  | call (token : Token) (callee : Expr) (arguments : List Expr)

/-- Statements.  A binding or a return whose value could not be read stands without one; an
expression statement carries the first token of its expression. -/
inductive Stmt
  | binding (token : Token) (ident : Ident) (value : Option Expr)
  | returning (token : Token) (value : Option Expr)
  | expression (token : Token) (expression : Expr)

/-- Statements between braces.  The token is the opening brace. -/
structure Block where
  token : Token
  statements : List Stmt

end

/-- The statements of a whole source, in its order. -/
structure Program where
  statements : List Stmt

/-- The token a node is known by. -/
def Expr.token : Expr → Token
  | .ident id => id.token
  | .integer token _ | .boolean token _ | .unary token _ _ | .binary token _ _ _
  | .conditional token _ _ _ | .function token _ _ | .call token _ _ => token

def Stmt.token : Stmt → Token
  | .binding token _ _ | .returning token _ | .expression token _ => token

namespace Program

def length (program : Program) : Nat :=
  program.statements.length

def isEmpty (program : Program) : Bool :=
  program.statements.isEmpty

/-- The text of the token the program starts with, empty when there are no statements. -/
def tokenLiteral (program : Program) : String :=
  match program.statements with
  | [] => ""
  | first :: _ => first.token.lexeme

end Program

/-- Whatever a tree can be rooted at. -/
inductive Node
  | program (program : Program)
  | block (block : Block)
  | statement (statement : Stmt)
  | expression (expression : Expr)

/-- The text of the token a node is known by. -/
def Node.tokenLiteral : Node → String
  | .program root => root.tokenLiteral
  | .block root => root.token.lexeme
  | .statement root => root.token.lexeme
  | .expression root => root.token.lexeme

end ExprLang
