/-
What can be wrong with a source, and the words for it: a name, a message and, where there is one, a
tip.
-/
import ExprLang.Token
import ExprLang.Text.Quoted

namespace ExprLang

/-- A fault found while reading a program. -/
inductive SyntaxError
  /-- Another kind of token had to come next. -/
  | unexpectedToken (expected found : TokenKind)
  /-- An expression was due, and no expression starts with this kind. -/
  | noExpression (kind : TokenKind)
  /-- The text of a number is no integer that can be held. -/
  | badInteger (lexeme : String)
  /-- More expressions are open at once than allowed. -/
  | nestingTooDeep (limit : Nat)
deriving DecidableEq

namespace SyntaxError

/-- The name under which a fault is listed. -/
def name : SyntaxError → String
  | unexpectedToken _ _ => "UnexpectedToken"
  | noExpression _ => "NoPrefixParseFn"
  | badInteger _ => "IntegerParse"
  | nestingTooDeep _ => "NestingTooDeep"

def message : SyntaxError → String
  | unexpectedToken expected found =>
      "expected next token to be " ++ expected.name ++ ", got " ++ found.name ++ " instead"
  | noExpression kind => "no prefix parse function for " ++ kind.name
  | badInteger lexeme => "could not parse " ++ quoted lexeme ++ " as integer"
  | nestingTooDeep limit =>
      "expressions nested more than " ++ Nat.repr limit ++ " levels deep"

/-- Advice that goes with a message.  Of the misplaced tokens only a block that runs into the end of
input has one. -/
def tip? : SyntaxError → Option String
  | unexpectedToken .closeCurly .eof => some "a block is missing its closing `\x7d`"
  | unexpectedToken _ _ => none
  | noExpression .illegal => some "the source contains a character the language does not use"
  | noExpression kind => some ("`" ++ kind.name ++ "` cannot start an expression")
  | badInteger lexeme =>
      some ("Invalid number: `" ++ lexeme ++ "`, is it above the integer limit?")
  | nestingTooDeep _ => some "split the expression with `let` bindings"

end SyntaxError

end ExprLang
