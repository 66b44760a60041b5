/-
Every token is as long as it can be.  What that means is said of each token by itself: what its text
is made of, and which byte is not right behind it.  A source can be cut into gaps and such tokens in
one way only, and the tokens of that way are the ones that are read.
-/
import ExprLang.Proofs.Boundaries

namespace ExprLang

/-- The byte of an unaccented letter, a digit or an underscore. -/
def isWordByte (byte : UInt8) : Bool :=
  isWordChar (Char.ofUInt8 byte)

/-- The byte of a digit. -/
def isDigitByte (byte : UInt8) : Bool :=
  (Char.ofUInt8 byte).isDigit

/-- The text of a token is one of its kind, and the byte right behind it, where there is one, does
not continue it.  An equals sign and an exclamation mark are continued by an equals sign; the other
marks are tokens by themselves, and so is a character that is no blank and begins nothing else. -/
def Token.IsLongest (token : Token) (behind : Option UInt8) : Prop :=
  match token.kind with
  | .eof => False
  | .identifier =>
      isWord token.lexeme.toList = true ∧
        (∀ kind, (token.lexeme, kind) ∉ TokenKind.reservedWords) ∧
        ∀ byte ∈ behind, isWordByte byte = false
  | .kwFn | .kwLet | .kwTrue | .kwFalse | .kwIf | .kwElse | .kwReturn =>
      (token.lexeme, token.kind) ∈ TokenKind.reservedWords ∧
        ∀ byte ∈ behind, isWordByte byte = false
  | .integer =>
      isDigitRun token.lexeme.toList = true ∧ ∀ byte ∈ behind, isDigitByte byte = false
  | .assign => token.lexeme = "=" ∧ behind ≠ some '='.toUInt8
  | .bang => token.lexeme = "!" ∧ behind ≠ some '='.toUInt8
  | .equals => token.lexeme = "=="
  | .notEquals => token.lexeme = "!="
  | .illegal => ∃ c, token.lexeme.toList = [c] ∧ isForeign c = true
  | kind => ∃ c, token.lexeme.toList = [c] ∧ mark? c = some kind

/-- Behind a front part of it a source consists of gaps and of tokens that are as long as they can
be, in this order. -/
inductive Cuts (source : String) : List Char → List Token → Prop
  | gap {before gap : List Char} : source.toList = before ++ gap → IsGap gap →
      Cuts source before []
  | token {before gap : List Char} {token : Token} {tokens : List Token} : IsGap gap →
      token.IsLongest (byteAt? source (byteLength (before ++ gap ++ token.lexeme.toList))) →
      Cuts source (before ++ gap ++ token.lexeme.toList) tokens →
      Cuts source before (token :: tokens)

theorem IsGap.isBlank_of_mem {c : Char} {gap : List Char} (hgap : IsGap gap) (hc : c ∈ gap) :
    isBlank c = true := by
  rcases hgap c hc with rfl | rfl | rfl | rfl <;> rfl

/-- A gap in front of a text adds no tokens. -/
theorem IsGap.scanAll_append {gap : List Char} (hgap : IsGap gap) (text : List Char) :
    scanAll (gap ++ text) = scanAll text := by
  induction gap with
  | nil => rfl
  | cons c gap ih =>
      rw [List.cons_append, scanAll_of_blank (hgap.isBlank_of_mem List.mem_cons_self)]
      exact ih fun d hd => hgap d (List.mem_cons_of_mem c hd)

/-- The text of a mark that is a token by itself. -/
theorem exists_mark?_iff {c : Char} {kind : TokenKind} (hmark : mark? c = some kind)
    {lexeme : String} :
    (∃ d, lexeme.toList = [d] ∧ mark? d = some kind) ↔ kind.spelling? = some lexeme := by
  constructor
  · rintro ⟨d, hlexeme, hd⟩
    rw [spelling?_of_mark? hd, ← hlexeme, String.ofList_toList]
  · intro hspelling
    rw [spelling?_of_mark? hmark, Option.some.injEq] at hspelling
    exact ⟨c, by rw [← hspelling, String.toList_ofList], hmark⟩

namespace TokenKind

theorem isReserved_eq_false_iff {word : String} :
    isReserved word = false ↔ ∀ kind, (word, kind) ∉ reservedWords := by
  rw [isReserved, Option.isSome_eq_false_iff, Option.isNone_iff_eq_none, List.lookup_eq_none_iff]
  constructor
  · intro hnone kind hmem
    simpa using hnone _ hmem
  · rintro hnone ⟨other, kind⟩ hmem
    rw [bne_iff_ne]
    rintro rfl
    exact hnone kind hmem

/-- A word is reserved for a kind if it is the spelling of a kind that is read from words. -/
theorem mem_reservedWords_iff {word : String} {kind : TokenKind} (hwords : kind ∈ words) :
    (word, kind) ∈ reservedWords ↔ kind.spelling? = some word := by
  cases kind <;> simp_all [words, reservedWords, spelling?, eq_comm]

end TokenKind

namespace Token

/-- No token is joined by a character of no class. -/
theorem joins_of_isUnclassed (token : Token) {c : Char} (hunclassed : IsUnclassed c) :
    token.joins c = false := by
  have hword : isWordChar c = false := by
    have hletter := hunclassed.isLetter_eq
    rw [isLetter, Bool.or_eq_false_iff] at hletter
    rw [isWordChar, Char.isAlphanum, hletter.1, hunclassed.isDigit_eq, hletter.2]
    rfl
  have hequals : c ≠ '=' := by
    rintro rfl
    exact absurd hunclassed.joiningMark?_eq (by decide)
  obtain ⟨kind, lexeme⟩ := token
  cases kind <;> simp [joins, hword, hunclassed.isDigit_eq, hequals]

/-- The byte of an equals sign is that of no other character. -/
theorem ne_equals_iff {behind : Option UInt8} :
    behind ≠ some '='.toUInt8 ↔ ∀ byte ∈ behind, Char.ofUInt8 byte ≠ '=' := by
  constructor
  · rintro hne byte rfl hequals
    rw [← hequals, toUInt8_ofUInt8] at hne
    exact hne rfl
  · rintro hne rfl
    exact hne _ rfl rfl

/-- A token is as long as it can be exactly if it is spelled right and what is behind does not join
it. -/
theorem isLongest_iff {token : Token} {behind : Option UInt8} :
    token.IsLongest behind ↔
      token.Spelled ∧ ∀ byte ∈ behind, token.joins (Char.ofUInt8 byte) = false := by
  obtain ⟨kind, lexeme⟩ := token
  have hequals : behind ≠ some '='.toUInt8 ↔
      ∀ byte ∈ behind, decide (Char.ofUInt8 byte = '=') = false := by
    rw [ne_equals_iff]
    simp only [decide_eq_false_iff_not, ne_eq]
  have hfree {spelled : Prop} : spelled ↔ spelled ∧ ∀ byte ∈ behind, false = false :=
    (and_iff_left fun _ _ => rfl).symm
  have hsole {text : String} : lexeme = text ↔ some text = some lexeme := by
    rw [Option.some.injEq, eq_comm]
  have hkeyword {fits : Prop} (hwords : kind ∈ TokenKind.words) :
      (lexeme, kind) ∈ TokenKind.reservedWords ∧ fits ↔ kind.spelling? = some lexeme ∧ fits :=
    and_congr_left' (TokenKind.mem_reservedWords_iff hwords)
  have hmark (c : Char) (hc : mark? c = some kind) :
      (∃ d, lexeme.toList = [d] ∧ mark? d = some kind) ↔
        kind.spelling? = some lexeme ∧ ∀ byte ∈ behind, false = false :=
    (exists_mark?_iff hc).trans hfree
  cases kind
  case eof => exact (and_iff_left_of_imp False.elim).symm
  case illegal => exact hfree
  case identifier =>
      rw [IsLongest, Spelled, TokenKind.isReserved_eq_false_iff, and_assoc]
      rfl
  case integer => rfl
  case assign => exact and_congr hsole hequals
  case bang => exact and_congr hsole hequals
  case equals => exact hsole.trans hfree
  case notEquals => exact hsole.trans hfree
  case kwFn => exact hkeyword (by decide)
  case kwLet => exact hkeyword (by decide)
  case kwTrue => exact hkeyword (by decide)
  case kwFalse => exact hkeyword (by decide)
  case kwIf => exact hkeyword (by decide)
  case kwElse => exact hkeyword (by decide)
  case kwReturn => exact hkeyword (by decide)
  case plus => exact hmark '+' rfl
  case minus => exact hmark '-' rfl
  case asterisk => exact hmark '*' rfl
  case slash => exact hmark '/' rfl
  case less => exact hmark '<' rfl
  case greater => exact hmark '>' rfl
  case comma => exact hmark ',' rfl
  case semicolon => exact hmark ';' rfl
  case openParen => exact hmark '(' rfl
  case closeParen => exact hmark ')' rfl
  case openCurly => exact hmark '\x7b' rfl
  case closeCurly => exact hmark '\x7d' rfl

/-- What is behind a part of a source joins a token if its first byte does. -/
theorem joins_byteAt?_iff (token : Token) {source : String} {before ahead : List Char}
    (hsource : source.toList = before ++ ahead) :
    (∀ byte ∈ byteAt? source (byteLength before), token.joins (Char.ofUInt8 byte) = false) ↔
      ∀ c ∈ ahead.head?, token.joins c = false := by
  rw [byteAt?_byteLength hsource]
  cases ahead with
  | nil => simp
  | cons c rest =>
      obtain ⟨byte, later, hencode, ⟨hsame, -⟩ | ⟨hbyte, hc⟩⟩ := exists_leadByte c
      · simp [hencode, hsame]
      · simp [hencode, joins_of_isUnclassed token hbyte, joins_of_isUnclassed token hc]

end Token

namespace Cuts

variable {source : String} {before ahead : List Char} {tokens : List Token}

theorem exists_append (hcuts : Cuts source before tokens) :
    ∃ ahead, source.toList = before ++ ahead := by
  induction hcuts with
  | gap hsource hgap => exact ⟨_, hsource⟩
  | token hgap hlongest hlater ih =>
      obtain ⟨ahead, hsource⟩ := ih
      exact ⟨_, by rw [hsource, List.append_assoc, List.append_assoc]⟩

/-- Only in one way can a source be cut. -/
theorem eq_scanAll (hcuts : Cuts source before tokens) (hsource : source.toList = before ++ ahead) :
    tokens = scanAll ahead := by
  induction hcuts generalizing ahead with
  | @gap before gap hsplit hgap =>
      obtain rfl : gap = ahead := List.append_cancel_left (hsplit.symm.trans hsource)
      rw [← List.append_nil gap, hgap.scanAll_append, scanAll_nil]
  | @token before gap token tokens hgap hlongest hlater ih =>
      obtain ⟨behind, hsplit⟩ := hlater.exists_append
      have hahead : ahead = gap ++ (token.lexeme.toList ++ behind) := by
        rw [hsource, List.append_assoc, List.append_assoc] at hsplit
        exact List.append_cancel_left hsplit
      obtain ⟨hspelled, hjoins⟩ := Token.isLongest_iff.1 hlongest
      rw [token.joins_byteAt?_iff hsplit] at hjoins
      rw [hahead, hgap.scanAll_append, scanAll_lexeme_append hspelled hjoins, ← ih hsplit]

/-- A blank behind the front part widens the first gap. -/
theorem cons_gap {c : Char} (hblank : isBlank c = true)
    (hcuts : Cuts source (before ++ [c]) tokens) : Cuts source before tokens := by
  have hmove (more : List Char) : before ++ [c] ++ more = before ++ (c :: more) := by
    rw [List.append_assoc, List.singleton_append]
  generalize hplace : before ++ [c] = place at hcuts
  cases hcuts with
  | @gap _ gap hsource hgap =>
      subst hplace
      rw [hmove] at hsource
      exact .gap hsource (hgap.cons hblank)
  | @token _ gap token tokens hgap hlongest hlater =>
      subst hplace
      rw [hmove] at hlongest hlater
      exact .token (hgap.cons hblank) hlongest hlater

/-- A source is cut into the tokens that are read. -/
theorem of_scanAll (hsource : source.toList = before ++ ahead) :
    Cuts source before (scanAll ahead) := by
  fun_induction scanAll ahead generalizing before with
  | case1 => exact .gap hsource isGap_nil
  | case2 c rest hblank ih =>
      refine cons_gap hblank (ih ?_)
      rw [hsource, List.append_assoc, List.singleton_append]
  | case3 c rest hblank ih =>
      rw [Bool.not_eq_true] at hblank
      have hsplit : source.toList =
          before ++ [] ++ (scan c rest).1.lexeme.toList ++ (scan c rest).2 := by
        rw [hsource, ← scan_append c rest, List.append_nil, List.append_assoc]
      refine .token isGap_nil (Token.isLongest_iff.2 ⟨spelled_scan hblank rest, ?_⟩) (ih hsplit)
      rw [Token.joins_byteAt?_iff _ hsplit]
      exact joins_scan c rest

end Cuts

/-- The tokens of a source are those into which it can be cut so that each is as long as it can be,
with the end of input behind them and nowhere else; and it can be cut so in one way only. -/
theorem eq_tokenize_iff (source : String) (tokens : List Token) :
    tokens = tokenize source ↔
      ∃ front, tokens = front ++ [.endOfInput] ∧ (∀ token ∈ front, token.kind ≠ .eof) ∧
        Cuts source [] front := by
  rw [tokenize_eq_scanAll]
  constructor
  · rintro rfl
    refine ⟨scanAll source.toList, rfl, fun token hmem => ?_, Cuts.of_scanAll rfl⟩
    exact (spelled_of_mem_scanAll hmem).kind_ne_eof
  · rintro ⟨front, rfl, -, hcuts⟩
    have hfront : front = scanAll source.toList := hcuts.eq_scanAll rfl
    rw [hfront]

/-- An equals sign in front of two more is cut off with the first of them. -/
example : tokenize "===x1y" =
    [⟨.equals, "=="⟩, ⟨.assign, "="⟩, ⟨.identifier, "x1y"⟩, .endOfInput] := by
  decide +kernel

end ExprLang
