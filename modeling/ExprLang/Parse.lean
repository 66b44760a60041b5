/-
Reading whole programs, and what is reported on the way.
-/
import ExprLang.Parser.Expression

namespace ExprLang

variable {σ : Type} [TokenSupply σ]

/-- Reads statements up to the end of input.  There is always a program; statements that cannot be
read are left out of it. -/
def parseProgram (state : Parser σ) : Program × Parser σ :=
  let (statements, after) := Rule.statements expression state
  (⟨statements⟩,
    { after with log := after.log.push (.finished statements.length after.errors.size) })

/-- Reads the tokens of a supply with at most so many expressions open at once. -/
def parseSupply (supply : σ) (limit : Nat) : Program × Parser σ :=
  parseProgram (Parser.ofSupply supply limit)

/-- The program in a source, and the errors in the order in which they were met.  With no errors the
source is a program of the language. -/
def parse (source : String) : Program × List SyntaxError :=
  let (program, final) := parseSupply (Lexer.ofSource source) maxNesting
  (program, final.errors.toList)

/-- What reading a program reports. -/
def parseReports (source : String) : List Event :=
  .entered .parse source.utf8ByteSize ::
    (parseSupply (Lexer.ofSource source) maxNesting).2.log.toList

/-- What reading all tokens reports. -/
def tokenizeReports (source : String) : List Event :=
  .entered .tokenize source.utf8ByteSize :: (tokenize source).map .pulled

example : (parse "let = 5").2 = [.unexpectedToken .identifier .assign, .noExpression .assign] := by
  decide +kernel

/-- A lone opening parenthesis is two faults: nothing is inside it, and it is not closed. -/
example : (parse "(").2 = [.noExpression .eof, .unexpectedToken .closeParen .eof] := by
  decide +kernel

end ExprLang
