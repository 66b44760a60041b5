/-
The command: it prints the canonical form of a program, or its tokens, or what is wrong with it.
All that it writes is decided here, given the bytes it reads.
-/
import ExprLang.CommandLine.Arguments
import ExprLang.Parse
import ExprLang.Tree.Render

namespace ExprLang

/-- What the command writes, and its exit code.  The events of reading are not part of it: they are
logged to the second stream, but only where the environment asks for more than warnings. -/
structure Reply where
  code : UInt32
  stdout : String
  stderr : String
deriving DecidableEq

/-- Why no text could be read. -/
inductive ReadFailure
  | notFound
  | isDirectory
  | notDirectory
  | nameTooLong
  | notPermitted
  | notText
  | other (description : String)
deriving DecidableEq

def ReadFailure.message : ReadFailure → String
  | notFound => "No such file or directory (os error 2)"
  | isDirectory => "Is a directory (os error 21)"
  | notDirectory => "Not a directory (os error 20)"
  | nameTooLong => "File name too long (os error 36)"
  | notPermitted => "Permission denied (os error 13)"
  | notText => "stream did not contain valid UTF-8"
  | other description => description

/-- The text in a file's bytes. -/
def decodeText (bytes : ByteArray) : Except ReadFailure String :=
  match String.fromUTF8? bytes with
  | some text => .ok text
  | none => .error .notText

namespace Token

/-- A token in a listing.  Its text is shown where the kind does not tell it. -/
def listing (token : Token) : String :=
  if token.isOneOf [.identifier, .integer, .illegal] then
    token.kind.name ++ " (" ++ token.lexeme ++ ")"
  else token.kind.name

end Token

/-- Each line followed by a line break. -/
def linesText (lines : List String) : String :=
  String.join (lines.map fun line => line ++ "\n")

/-- An error as it is shown to the user, with its tip on a line of its own. -/
def SyntaxError.report (error : SyntaxError) : List String :=
  ("Error: " ++ error.name ++ ": " ++ error.message) ::
    match error.tip? with
    | none => []
    | some tip => ["  tip: " ++ tip]

namespace Reply

/-- One line for each token, whatever they are. -/
def ofTokens (source : String) : Reply :=
  ⟨0, linesText ((tokenize source).map Token.listing), ""⟩

/-- The canonical form of a source without errors, or else all its errors. -/
def ofProgram (source : String) : Reply :=
  match parse source with
  | (program, []) => ⟨0, linesText [program.render], ""⟩
  | (_, errors) => ⟨1, "", linesText (errors.flatMap SyntaxError.report)⟩

/-- The answer to a source that has been read, or could not be. -/
def ofInput (listTokens : Bool) (input : Except ReadFailure String) : Reply :=
  match input with
  | .error failure => ⟨1, "", linesText ["Error: could not read input: " ++ failure.message]⟩
  | .ok source => if listTokens then ofTokens source else ofProgram source

def help : Reply :=
  ⟨0, linesText
    ["Parse a program and print its canonical, fully parenthesized form",
      "",
      "Usage: monkey-syntax [OPTIONS] [PATH]",
      "",
      "Arguments:",
      "  [PATH]  Source file to read; stdin when omitted",
      "",
      "Options:",
      "      --tokens   Print the token stream instead of parsing",
      "  -h, --help     Print help",
      "  -V, --version  Print version"], ""⟩

def version : Reply :=
  ⟨0, linesText ["monkey-syntax 0.1.0"], ""⟩

/-- A paragraph that is there only if it has a text. -/
def paragraph (lead : String) : Option String → List String
  | none => []
  | some text => [lead ++ text, ""]

def ofUsageError (error : UsageError) : Reply :=
  ⟨2, "", linesText
    (["error: " ++ error.message, ""] ++ paragraph "  tip: " error.tip? ++
      paragraph "Usage: monkey-syntax " (error.callForm?.map CallForm.text) ++
      ["For more information, try '--help'."])⟩

/-- The answer to a request, where `read` gives what is at a path, or comes in when there is
none. -/
def ofRequest (read : Option String → Except ReadFailure ByteArray) : Request → Reply
  | .help => help
  | .version => version
  | .reject error => ofUsageError error
  | .process listTokens path => ofInput listTokens (read path >>= decodeText)

end Reply

example : Reply.ofProgram "1 - 2 * 3 == f(x)" =
    ⟨0, "((1 - (2 * 3)) == f(x))\n", ""⟩ := by
  decide +kernel

example : Reply.ofProgram "1 +" =
    ⟨1, "", "Error: NoPrefixParseFn: no prefix parse function for EOF\n" ++
      "  tip: `EOF` cannot start an expression\n"⟩ := by
  decide +kernel

end ExprLang
