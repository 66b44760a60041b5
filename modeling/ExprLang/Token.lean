/-
Tokens: what kinds there are, which words are reserved, and a token as a kind together with the
text it was read from.
-/
namespace ExprLang

/-- What a token is.  Each operator and each punctuation mark has a kind of its own. -/
inductive TokenKind
  | illegal
  | eof
  | identifier
  | integer
  | assign
  | plus
  | minus
  | bang
  | asterisk
  | slash
  | equals
  | notEquals
  | less
  | greater
  | comma
  | semicolon
  | openParen
  | closeParen
  | openCurly
  | closeCurly
  | kwFn
  | kwLet
  | kwTrue
  | kwFalse
  | kwIf
  | kwElse
  | kwReturn
deriving DecidableEq

namespace TokenKind

/-- The name a kind has in diagnostics and in a token listing. -/
def name : TokenKind → String
  | illegal => "ILLEGAL"
  | eof => "EOF"
  | identifier => "IDENT"
  | integer => "INT"
  | assign => "="
  | plus => "+"
  | minus => "-"
  | bang => "!"
  | asterisk => "*"
  | slash => "/"
  | equals => "=="
  | notEquals => "!="
  | less => "<"
  | greater => ">"
  | comma => ","
  | semicolon => ";"
  | openParen => "("
  | closeParen => ")"
  | openCurly => "\x7b"
  | closeCurly => "\x7d"
  | kwFn => "FUNCTION"
  | kwLet => "LET"
  | kwTrue => "TRUE"
  | kwFalse => "FALSE"
  | kwIf => "IF"
  | kwElse => "ELSE"
  | kwReturn => "RETURN"

/-- Every kind, once. -/
def all : List TokenKind :=
  [illegal, eof, identifier, integer, assign, plus, minus, bang, asterisk, slash, equals,
    notEquals, less, greater, comma, semicolon, openParen, closeParen, openCurly, closeCurly,
    kwFn, kwLet, kwTrue, kwFalse, kwIf, kwElse, kwReturn]

theorem mem_all (kind : TokenKind) : kind ∈ all := by
  cases kind <;> decide

/-- The kind that has a given name. -/
def ofName? (name : String) : Option TokenKind :=
  all.find? fun kind => kind.name = name

theorem ofName?_name (kind : TokenKind) : ofName? kind.name = some kind := by
  cases kind <;> rfl

theorem name_injective {left right : TokenKind} (hname : left.name = right.name) :
    left = right := by
  have hsome : some left = some right := by
    rw [← ofName?_name left, hname, ofName?_name right]
  exact Option.some.inj hsome

/-- The reserved words with their kinds, in the order of the words. -/
def reservedWords : List (String × TokenKind) :=
  [("else", kwElse), ("false", kwFalse), ("fn", kwFn), ("if", kwIf), ("let", kwLet),
    ("return", kwReturn), ("true", kwTrue)]

/-- The kind of a word: that of the keyword it spells, else an identifier. -/
def ofWord (word : String) : TokenKind :=
  (reservedWords.lookup word).getD identifier

/-- Only an exact spelling is reserved. -/
def isReserved (word : String) : Bool :=
  (reservedWords.lookup word).isSome

theorem ofWord_ne_eof (word : String) : ofWord word ≠ eof := by
  unfold ofWord
  cases hfound : reservedWords.lookup word with
  | none => decide
  | some kind =>
      intro heof
      rw [Option.getD_some] at heof
      subst heof
      simp [reservedWords, List.lookup_cons] at hfound
      repeat' split at hfound
      all_goals simp at hfound

end TokenKind

/-- A kind and the source text it was read from.  The end of input has no text. -/
structure Token where
  kind : TokenKind
  lexeme : String
deriving DecidableEq

namespace Token

/-- The token that stands for the end of input. -/
def endOfInput : Token := ⟨.eof, ""⟩

/-- A token on one line: its kind, a space and its text. -/
def describe (token : Token) : String :=
  token.kind.name ++ " " ++ token.lexeme

def isOneOf (token : Token) (kinds : List TokenKind) : Bool :=
  decide (token.kind ∈ kinds)

theorem isOneOf_iff {token : Token} {kinds : List TokenKind} :
    token.isOneOf kinds = true ↔ token.kind ∈ kinds := by
  simp [isOneOf]

end Token

end ExprLang
