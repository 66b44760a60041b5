/-
A lexer over the bytes of its source.  It holds one byte together with the index of the byte, can
look one byte further, and cuts the texts of its tokens out of the source by byte indices.  A cut
has no result unless its ends are in order, in bounds and between characters, and a lexer that
makes a cut without a result gives no answer.
-/
import ExprLang.Lexer

namespace ExprLang

/-- The byte of a text at an index. -/
def byteAt? (text : String) (index : Nat) : Option UInt8 :=
  text.toUTF8.data[index]?

/-- Whether an index into the bytes of a text is that of the first byte of a character, or the end
of the text. -/
def IsBoundary (text : String) (index : Nat) : Prop :=
  (⟨index⟩ : String.Pos.Raw).IsValid text

instance (text : String) (index : Nat) : Decidable (IsBoundary text index) :=
  inferInstanceAs (Decidable ((⟨index⟩ : String.Pos.Raw).IsValid text))

/-- The bytes of a text from one index up to another, as a text. -/
def slice? (text : String) (start stop : Nat) : Option String :=
  if h : start ≤ stop ∧ IsBoundary text start ∧ IsBoundary text stop then
    some (text.extract ⟨⟨start⟩, h.2.1⟩ ⟨⟨stop⟩, h.2.2⟩)
  else none

/-- How many bytes at the front of a text match a pattern, as many as can: a character of one class
and behind it characters of another. -/
def matchLength? (first later : Char → Bool) (text : String) : Option Nat :=
  match text.toList with
  | [] => none
  | c :: rest =>
      if first c then some (String.ofList (c :: rest.takeWhile later)).utf8ByteSize else none

/-- The byte a lexer stands at, absent at the end, with its index and the index of the byte behind
it; and whether the end of input has been handed out as an item of the sequence of tokens. -/
structure ByteLexer where
  source : String
  position : Nat
  readPosition : Nat
  byte : Option UInt8
  finished : Bool

namespace ByteLexer

/-- Moves to an index, at most to the end of the source. -/
def seek (lexer : ByteLexer) (target : Nat) : ByteLexer :=
  let position := min target lexer.source.utf8ByteSize
  { lexer with
    position := position
    readPosition := position + 1
    byte := byteAt? lexer.source position }

def readByte (lexer : ByteLexer) : ByteLexer :=
  lexer.seek lexer.readPosition

def peekByte (lexer : ByteLexer) : Option UInt8 :=
  byteAt? lexer.source lexer.readPosition

/-- A lexer at the start of a source. -/
def ofSource (source : String) : ByteLexer :=
  ByteLexer.readByte ⟨source, 0, 0, none, false⟩

/-- A lexer of its own with the same contents. -/
def copy (lexer : ByteLexer) : ByteLexer :=
  ⟨lexer.source, lexer.position, lexer.readPosition, lexer.byte, lexer.finished⟩

def atBlank (lexer : ByteLexer) : Bool :=
  lexer.byte.any fun byte => isBlank (Char.ofUInt8 byte)

theorem byteAt?_eq_none {text : String} {index : Nat} (hindex : text.utf8ByteSize ≤ index) :
    byteAt? text index = none :=
  Array.getElem?_eq_none hindex

/-- How often a lexer can still read a byte and stand at one. -/
def bytesLeft (lexer : ByteLexer) : Nat :=
  if lexer.byte.isSome then lexer.source.utf8ByteSize + 1 - lexer.readPosition + 1 else 0

/-- Reading on from a blank leaves fewer bytes. -/
theorem bytesLeft_readByte_lt {lexer : ByteLexer} (hblank : lexer.atBlank = true) :
    lexer.readByte.bytesLeft < lexer.bytesLeft := by
  have hsome : lexer.byte.isSome = true := by
    cases hbyte : lexer.byte with
    | none => simp [atBlank, hbyte] at hblank
    | some byte => rfl
  by_cases hbehind : lexer.readPosition < lexer.source.utf8ByteSize
  · simp only [bytesLeft, readByte, seek, hsome, if_true, Nat.min_eq_left (Nat.le_of_lt hbehind)]
    split <;> omega
  · have hend : lexer.readByte.byte = none :=
      byteAt?_eq_none (by omega)
    simp [bytesLeft, hend, hsome]

def skipBlanks (lexer : ByteLexer) : ByteLexer :=
  if lexer.atBlank then lexer.readByte.skipBlanks else lexer
termination_by lexer.bytesLeft
decreasing_by exact bytesLeft_readByte_lt ‹_›

/-- A mark that joins with an equals sign, with the equals sign if there is one.  The lexer is left
at the last byte of the token. -/
def pairToken? (lexer : ByteLexer) (joined alone : TokenKind) : Option (Token × ByteLexer) :=
  let start := lexer.position
  if lexer.peekByte = some '='.toUInt8 then do
    let lexer := lexer.readByte
    let lexeme ← slice? lexer.source start (lexer.position + 1)
    return (⟨joined, lexeme⟩, lexer)
  else do
    let lexeme ← slice? lexer.source start lexer.readPosition
    return (⟨alone, lexeme⟩, lexer)

/-- The longest text ahead that matches a pattern. -/
def readRun? (lexer : ByteLexer) (first later : Char → Bool) : Option (String × ByteLexer) := do
  let start := lexer.position
  let ahead ← slice? lexer.source start lexer.source.utf8ByteSize
  let stop := ((matchLength? first later ahead).map (start + ·)).getD start
  let run ← slice? lexer.source start stop
  return (run, lexer.seek stop)

/-- The whole character ahead, however many bytes it has. -/
def readIllegal? (lexer : ByteLexer) : Option (Token × ByteLexer) := do
  let start := lexer.position
  let ahead ← slice? lexer.source start lexer.source.utf8ByteSize
  let stop := (ahead.toList.head?.map (start + ·.utf8Size)).getD (start + 1)
  let lexeme ← slice? lexer.source start stop
  return (⟨.illegal, lexeme⟩, lexer.seek stop)

/-- The token that begins with the byte the lexer stands at.  The bytes of a character that has
several are all above those of the marks, letters and digits. -/
def tokenAt? (lexer : ByteLexer) : Option (Token × ByteLexer) :=
  match lexer.byte with
  | none => return (.endOfInput, lexer.readByte)
  | some byte =>
      let c := Char.ofUInt8 byte
      match joiningMark? c, mark? c with
      | some (alone, joined), _ => do
          let (token, lexer) ← lexer.pairToken? joined alone
          return (token, lexer.readByte)
      | none, some kind => return (⟨kind, String.singleton c⟩, lexer.readByte)
      | none, none =>
          if isLetter c then do
            let (word, lexer) ← lexer.readRun? isLetter isWordChar
            return (⟨.ofWord word, word⟩, lexer)
          else if c.isDigit then do
            let (digits, lexer) ← lexer.readRun? Char.isDigit Char.isDigit
            return (⟨.integer, digits⟩, lexer)
          else lexer.readIllegal?

/-- Reads one token. -/
def nextToken? (lexer : ByteLexer) : Option (Token × ByteLexer) :=
  lexer.skipBlanks.tokenAt?

/-- The next item of the sequence of tokens, absent behind the end of input. -/
def next? (lexer : ByteLexer) : Option (Option Token × ByteLexer) :=
  if lexer.finished then return (none, lexer)
  else do
    let (token, lexer) ← lexer.nextToken?
    return (some token, { lexer with finished := token.kind = .eof })

end ByteLexer

/-- What is done with a lexer: it is asked for a token, it is asked for an item of its sequence of
tokens, or it is replaced by a copy. -/
inductive LexerUse
  | nextToken
  | next
  | copy
deriving DecidableEq

/-- What one use of a lexer yields, and the lexer that is left. -/
def Lexer.use (lexer : Lexer) : LexerUse → Option Token × Lexer
  | .nextToken => (some lexer.nextToken.1, lexer.nextToken.2)
  | .next => lexer.next?
  | .copy => (none, lexer)

/-- What a row of uses yields, and the lexer that is left. -/
def Lexer.useAll (lexer : Lexer) : List LexerUse → List (Option Token) × Lexer
  | [] => ([], lexer)
  | use :: uses =>
      let (yields, final) := (lexer.use use).2.useAll uses
      ((lexer.use use).1 :: yields, final)

namespace ByteLexer

/-- What one use of a lexer yields, and the lexer that is left. -/
def use? (lexer : ByteLexer) : LexerUse → Option (Option Token × ByteLexer)
  | .nextToken => do
      let (token, lexer) ← lexer.nextToken?
      return (some token, lexer)
  | .next => lexer.next?
  | .copy => return (none, lexer.copy)

/-- What a row of uses yields, and the lexer that is left. -/
def useAll? (lexer : ByteLexer) : List LexerUse → Option (List (Option Token) × ByteLexer)
  | [] => return ([], lexer)
  | use :: uses => do
      let (yielded, lexer) ← lexer.use? use
      let (yields, lexer) ← lexer.useAll? uses
      return (yielded :: yields, lexer)

end ByteLexer

end ExprLang
