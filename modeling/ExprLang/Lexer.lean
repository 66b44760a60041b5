/-
Reading source text as tokens.  A lexer stands at a byte of the source and hands out the next
token on request; past the last one it answers with the end of input for ever.  `tokenize` reads a
whole source.  Main statements: reading a token that is not the end of input leaves less text, and
at the end of the text the lexer no longer moves.
-/
import ExprLang.Token

namespace ExprLang

/-- What may stand between tokens.  Every blank is one byte wide. -/
def isBlank (c : Char) : Bool :=
  c = ' ' || c = '\t' || c = '\n' || c = '\r'

/-- What may begin a word: an unaccented letter or an underscore. -/
def isLetter (c : Char) : Bool :=
  c.isAlpha || c = '_'

/-- What may follow inside a word. -/
def isWordChar (c : Char) : Bool :=
  c.isAlphanum || c = '_'

/-- The marks that are a token by themselves, whatever follows them. -/
def mark? : Char → Option TokenKind
  | '+' => some .plus
  | '-' => some .minus
  | '*' => some .asterisk
  | '/' => some .slash
  | '<' => some .less
  | '>' => some .greater
  | ',' => some .comma
  | ';' => some .semicolon
  | '(' => some .openParen
  | ')' => some .closeParen
  | '\x7b' => some .openCurly
  | '\x7d' => some .closeCurly
  | _ => none

/-- The marks that join with an equals sign right behind them: the kind a mark has alone, and the
kind of the pair. -/
def joiningMark? : Char → Option (TokenKind × TokenKind)
  | '=' => some (.assign, .equals)
  | '!' => some (.bang, .notEquals)
  | _ => none

/-- The token that begins with a given character that is no blank, and the text behind it.  Words
and digit runs extend as far as they can; a character that fits nothing is a token by itself. -/
def scan (c : Char) (rest : List Char) : Token × List Char :=
  if isLetter c then
    let word := String.ofList (c :: rest.takeWhile isWordChar)
    (⟨.ofWord word, word⟩, rest.dropWhile isWordChar)
  else if c.isDigit then
    (⟨.integer, String.ofList (c :: rest.takeWhile Char.isDigit)⟩, rest.dropWhile Char.isDigit)
  else
    match joiningMark? c with
    | some (alone, joined) =>
        match rest with
        | '=' :: after => (⟨joined, String.ofList [c, '=']⟩, after)
        | _ => (⟨alone, String.ofList [c]⟩, rest)
    | none => (⟨(mark? c).getD .illegal, String.ofList [c]⟩, rest)

/-- Where reading has come to: the byte the lexer stands at, the text from there on, and whether
the end of input has been handed out as an item of the sequence of tokens. -/
structure Lexer where
  position : Nat
  rest : List Char
  ended : Bool
deriving DecidableEq

namespace Lexer

/-- A lexer at the start of a source. -/
def ofSource (source : String) : Lexer :=
  ⟨0, source.toList, false⟩

/-- The byte behind the one the lexer stands at. -/
def readPosition (lexer : Lexer) : Nat :=
  lexer.position + 1

/-- Reads one token.  Blanks before it are skipped; with only blanks left the token is the end of
input. -/
def nextToken (lexer : Lexer) : Token × Lexer :=
  let start := lexer.position + (lexer.rest.takeWhile isBlank).length
  match lexer.rest.dropWhile isBlank with
  | [] => (.endOfInput, ⟨start, [], lexer.ended⟩)
  | c :: rest =>
      let (token, after) := scan c rest
      (token, ⟨start + token.lexeme.utf8ByteSize, after, lexer.ended⟩)

/-- The next item of the sequence of tokens, which ends with the first end of input it contains.
Reading past the end by `nextToken` alone does not end the sequence. -/
def next? (lexer : Lexer) : Option Token × Lexer :=
  if lexer.ended then (none, lexer)
  else
    let (token, after) := lexer.nextToken
    (some token, ⟨after.position, after.rest, token.kind = .eof⟩)

end Lexer

theorem mark?_ne_eof (c : Char) : mark? c ≠ some .eof := by
  unfold mark?
  split <;> decide

theorem joiningMark?_ne_eof (c : Char) {alone joined : TokenKind}
    (hmark : joiningMark? c = some (alone, joined)) : alone ≠ .eof ∧ joined ≠ .eof := by
  unfold joiningMark? at hmark
  split at hmark <;> simp at hmark <;> obtain ⟨rfl, rfl⟩ := hmark <;> decide

/-- The end of input is never read off a character. -/
theorem scan_kind_ne_eof (c : Char) (rest : List Char) : (scan c rest).1.kind ≠ .eof := by
  unfold scan
  split
  · exact TokenKind.ofWord_ne_eof _
  · split
    · exact TokenKind.noConfusion
    · cases hjoin : joiningMark? c with
      | none =>
          cases hmark : mark? c with
          | none => exact TokenKind.noConfusion
          | some kind =>
              intro heof
              exact mark?_ne_eof c (by rw [hmark]; exact congrArg some heof)
      | some kinds =>
          obtain ⟨halone, hjoined⟩ := joiningMark?_ne_eof c hjoin
          dsimp only
          split
          · exact hjoined
          · exact halone

/-- A token's text and the text behind it are the text it was read from. -/
theorem scan_append (c : Char) (rest : List Char) :
    (scan c rest).1.lexeme.toList ++ (scan c rest).2 = c :: rest := by
  unfold scan
  split
  · simp
  · split
    · simp
    · split
      · split <;> simp
      · simp

theorem scan_length_le (c : Char) (rest : List Char) : (scan c rest).2.length ≤ rest.length := by
  unfold scan
  split
  · exact (List.dropWhile_suffix _).length_le
  · split
    · exact (List.dropWhile_suffix _).length_le
    · split
      · split
        · simp
        · exact Nat.le_refl _
      · exact Nat.le_refl _

namespace Lexer

@[simp]
theorem nextToken_ended (lexer : Lexer) : lexer.nextToken.2.ended = lexer.ended := by
  unfold nextToken
  dsimp only
  split <;> rfl

/-- The end of input is answered exactly when only blanks are left. -/
theorem nextToken_kind_eq_eof_iff (lexer : Lexer) :
    lexer.nextToken.1.kind = .eof ↔ lexer.rest.dropWhile isBlank = [] := by
  unfold nextToken
  dsimp only
  split
  · next hrest => simp [hrest, Token.endOfInput]
  · next c rest hrest => simp [hrest, scan_kind_ne_eof]

theorem nextToken_eq_endOfInput {lexer : Lexer} (hkind : lexer.nextToken.1.kind = .eof) :
    lexer.nextToken.1 = .endOfInput := by
  have hrest := (nextToken_kind_eq_eof_iff lexer).1 hkind
  simp [nextToken, hrest]

/-- Behind the end of input there is no text. -/
theorem nextToken_rest_eq_nil {lexer : Lexer} (hkind : lexer.nextToken.1.kind = .eof) :
    lexer.nextToken.2.rest = [] := by
  have hrest := (nextToken_kind_eq_eof_iff lexer).1 hkind
  simp [nextToken, hrest]

theorem nextToken_rest_length_le (lexer : Lexer) :
    lexer.nextToken.2.rest.length ≤ lexer.rest.length := by
  unfold nextToken
  dsimp only
  split
  · simp
  · next c rest hrest =>
      have hdrop := (List.dropWhile_suffix (l := lexer.rest) isBlank).length_le
      rw [hrest, List.length_cons] at hdrop
      have hscan := scan_length_le c rest
      dsimp only
      omega

/-- A token that is not the end of input uses up text. -/
theorem nextToken_rest_length_lt {lexer : Lexer} (hkind : lexer.nextToken.1.kind ≠ .eof) :
    lexer.nextToken.2.rest.length < lexer.rest.length := by
  rw [ne_eq, nextToken_kind_eq_eof_iff] at hkind
  unfold nextToken
  dsimp only
  split
  · next hrest => exact absurd hrest hkind
  · next c rest hrest =>
      have hdrop := (List.dropWhile_suffix (l := lexer.rest) isBlank).length_le
      rw [hrest, List.length_cons] at hdrop
      have hscan := scan_length_le c rest
      dsimp only
      omega

/-- Once the text is used up the lexer answers with the end of input and stays where it is. -/
theorem nextToken_of_rest_nil {lexer : Lexer} (hrest : lexer.rest = []) :
    lexer.nextToken = (.endOfInput, lexer) := by
  obtain ⟨position, rest, ended⟩ := lexer
  subst hrest
  rfl

/-- The items of the sequence of tokens that are still to come, and the lexer behind them. -/
def drain (lexer : Lexer) : List Token × Lexer :=
  if lexer.ended then ([], lexer)
  else if lexer.nextToken.1.kind = .eof then
    ([lexer.nextToken.1], ⟨lexer.nextToken.2.position, lexer.nextToken.2.rest, true⟩)
  else
    let (tokens, final) := drain lexer.nextToken.2
    (lexer.nextToken.1 :: tokens, final)
termination_by lexer.rest.length
decreasing_by exact nextToken_rest_length_lt ‹_›

end Lexer

/-- All tokens of a source, the end of input last. -/
def tokenize (source : String) : List Token :=
  (Lexer.ofSource source).drain.1

example : tokenize "let x1 == 5;" =
    [⟨.kwLet, "let"⟩, ⟨.identifier, "x1"⟩, ⟨.equals, "=="⟩, ⟨.integer, "5"⟩, ⟨.semicolon, ";"⟩,
      .endOfInput] := by
  decide +kernel

example : tokenize "5a é" =
    [⟨.integer, "5"⟩, ⟨.identifier, "a"⟩, ⟨.illegal, "é"⟩, .endOfInput] := by
  decide +kernel

end ExprLang
