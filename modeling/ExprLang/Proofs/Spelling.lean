/-
The tokens of a text and the texts of tokens.  `scanAll` reads a whole text at once; `tokenize`
gives these tokens with the end of input behind them, and a lexer supplies them one by one.  A token
is spelled right if its text is one that its kind is read from: every token read is, and the text
of such a token is read as that token, as long as nothing behind it joins it.
-/
import ExprLang.Proofs.Cursor
import ExprLang.Text.Decimal

namespace ExprLang

/-- The tokens of a text, without the end of input. -/
def scanAll : List Char → List Token
  | [] => []
  | c :: rest =>
      if isBlank c then scanAll rest
      else (scan c rest).1 :: scanAll (scan c rest).2
termination_by text => text.length
decreasing_by
  · exact Nat.lt_succ_self _
  · exact Nat.lt_succ_of_le (scan_length_le c rest)

theorem scanAll_nil : scanAll [] = [] := by
  rw [scanAll]

theorem scanAll_of_blank {c : Char} (hblank : isBlank c = true) (rest : List Char) :
    scanAll (c :: rest) = scanAll rest := by
  rw [scanAll, if_pos hblank]

theorem scanAll_of_not_blank {c : Char} (hblank : isBlank c = false) (rest : List Char) :
    scanAll (c :: rest) = (scan c rest).1 :: scanAll (scan c rest).2 := by
  rw [scanAll, if_neg (by rw [hblank]; decide)]

theorem scanAll_dropWhile_isBlank (text : List Char) :
    scanAll (text.dropWhile isBlank) = scanAll text := by
  induction text with
  | nil => rfl
  | cons c rest ih =>
      cases hblank : isBlank c with
      | true => rw [List.dropWhile_cons, if_pos hblank, ih, scanAll_of_blank hblank]
      | false => rw [List.dropWhile_cons, if_neg (by rw [hblank]; decide)]

theorem isBlank_of_dropWhile_eq_cons {text rest : List Char} {c : Char}
    (hdrop : text.dropWhile isBlank = c :: rest) : isBlank c = false := by
  have hhead := List.head?_dropWhile_not isBlank text
  rw [hdrop] at hhead
  simpa using hhead

namespace Lexer

/-- With only blanks left there are no tokens, and else the next token comes first. -/
theorem scanAll_rest (lexer : Lexer) :
    scanAll lexer.rest =
      if lexer.nextToken.1.kind = .eof then []
      else lexer.nextToken.1 :: scanAll lexer.nextToken.2.rest := by
  rw [← scanAll_dropWhile_isBlank lexer.rest]
  by_cases heof : lexer.nextToken.1.kind = .eof
  · rw [if_pos heof, (nextToken_kind_eq_eof_iff lexer).1 heof, scanAll_nil]
  · rw [if_neg heof]
    rw [nextToken_kind_eq_eof_iff] at heof
    obtain ⟨c, rest, hrest⟩ := List.exists_cons_of_ne_nil heof
    rw [hrest, scanAll_of_not_blank (isBlank_of_dropWhile_eq_cons hrest)]
    simp [nextToken, hrest]

theorem drain_fst (lexer : Lexer) (hended : lexer.ended = false) :
    lexer.drain.1 = scanAll lexer.rest ++ [.endOfInput] := by
  fun_induction drain lexer with
  | case1 lexer hdone => rw [hdone] at hended; contradiction
  | case2 lexer hopen heof =>
      rw [scanAll_rest, if_pos heof, nextToken_eq_endOfInput heof]
      rfl
  | case3 lexer hopen heof tokens final hlater ih =>
      rw [hlater] at ih
      rw [scanAll_rest, if_neg heof, List.cons_append, ← ih (by simpa using hended)]

/-- A lexer supplies the tokens of the text in front of it. -/
theorem supplies_scanAll (lexer : Lexer) : Supplies lexer (scanAll lexer.rest) := by
  intro n
  induction n generalizing lexer with
  | zero =>
      rw [scanAll_rest]
      by_cases heof : lexer.nextToken.1.kind = .eof
      · rw [if_pos heof]
        exact nextToken_eq_endOfInput heof
      · rw [if_neg heof]
        rfl
  | succ n ih =>
      rw [scanAll_rest]
      have hnext := ih lexer.nextToken.2
      by_cases heof : lexer.nextToken.1.kind = .eof
      · rw [nextToken_rest_eq_nil heof, scanAll_nil] at hnext
        rw [if_pos heof]
        exact hnext
      · rw [if_neg heof]
        exact hnext

end Lexer

/-- All tokens of a source are those of its text and then the end of input. -/
theorem tokenize_eq_scanAll (source : String) :
    tokenize source = scanAll source.toList ++ [.endOfInput] :=
  Lexer.drain_fst (.ofSource source) rfl

/-- A word: a letter, and behind it only what may follow inside a word. -/
def isWord : List Char → Bool
  | [] => false
  | c :: rest => isLetter c && rest.all isWordChar

/-- A character that no token of the language begins with and that is no blank. -/
def isForeign (c : Char) : Bool :=
  !isBlank c && !isLetter c && !c.isDigit && (joiningMark? c).isNone && (mark? c).isNone

/-- The kinds that are read from words. -/
def TokenKind.words : List TokenKind :=
  [identifier, kwFn, kwLet, kwTrue, kwFalse, kwIf, kwElse, kwReturn]

/-- The text of the kinds that have just one. -/
def TokenKind.spelling? : TokenKind → Option String
  | illegal | eof | identifier | integer => none
  | kwFn => some "fn"
  | kwLet => some "let"
  | kwTrue => some "true"
  | kwFalse => some "false"
  | kwIf => some "if"
  | kwElse => some "else"
  | kwReturn => some "return"
  | kind => some kind.name

namespace Token

/-- The text of a token is one that its kind is read from.  The end of input is read from none. -/
def Spelled (token : Token) : Prop :=
  match token.kind with
  | .eof => False
  | .illegal => ∃ c, token.lexeme.toList = [c] ∧ isForeign c = true
  | .identifier => isWord token.lexeme.toList = true ∧ TokenKind.isReserved token.lexeme = false
  | .integer => isDigitRun token.lexeme.toList = true
  | kind => kind.spelling? = some token.lexeme

/-- Whether a character right behind a token would become part of it. -/
def joins (token : Token) (c : Char) : Bool :=
  match token.kind with
  | .identifier | .kwFn | .kwLet | .kwTrue | .kwFalse | .kwIf | .kwElse | .kwReturn => isWordChar c
  | .integer => c.isDigit
  | .assign | .bang => c = '='
  | _ => false

theorem Spelled.kind_ne_eof {token : Token} (hspelled : token.Spelled) : token.kind ≠ .eof := by
  intro heof
  simp [Spelled, heof] at hspelled

theorem Spelled.isDigitRun {token : Token} (hspelled : token.Spelled)
    (hkind : token.kind = .integer) : isDigitRun token.lexeme.toList = true := by
  simpa [Spelled, hkind] using hspelled

end Token

namespace TokenKind

theorem ofWord_of_not_isReserved {word : String} (hword : isReserved word = false) :
    ofWord word = identifier := by
  rw [isReserved, Option.isSome_eq_false_iff, Option.isNone_iff_eq_none] at hword
  rw [ofWord, hword]
  rfl

/-- A reserved word is the spelling of its kind. -/
theorem spelling?_of_lookup {word : String} {kind : TokenKind}
    (hfound : reservedWords.lookup word = some kind) :
    kind.spelling? = some word := by
  obtain ⟨before, behind, htable, -⟩ := List.lookup_eq_some_iff.1 hfound
  have hmem : (word, kind) ∈ reservedWords := by
    rw [htable]
    exact List.mem_append_right _ List.mem_cons_self
  simp only [reservedWords, List.mem_cons, Prod.mk.injEq, List.not_mem_nil, or_false] at hmem
  rcases hmem with ⟨rfl, rfl⟩ | ⟨rfl, rfl⟩ | ⟨rfl, rfl⟩ | ⟨rfl, rfl⟩ | ⟨rfl, rfl⟩ | ⟨rfl, rfl⟩ |
    ⟨rfl, rfl⟩ <;> rfl

/-- A word is read as a kind that words are read as. -/
theorem ofWord_mem_words (word : String) : ofWord word ∈ words := by
  rw [ofWord]
  cases hfound : reservedWords.lookup word with
  | none => decide
  | some kind =>
      obtain ⟨before, behind, htable, -⟩ := List.lookup_eq_some_iff.1 hfound
      have hmem : (word, kind) ∈ reservedWords := by
        rw [htable]
        exact List.mem_append_right _ List.mem_cons_self
      have hall : ∀ entry ∈ reservedWords, entry.2 ∈ words := by decide
      exact hall _ hmem

end TokenKind

theorem eq_of_isBlank {c : Char} (hblank : isBlank c = true) :
    c = ' ' ∨ c = '\t' ∨ c = '\n' ∨ c = '\r' := by
  simpa [isBlank, or_assoc] using hblank

theorem isBlank_of_isLetter {c : Char} (hletter : isLetter c = true) : isBlank c = false := by
  cases hblank : isBlank c with
  | false => rfl
  | true => rcases eq_of_isBlank hblank with rfl | rfl | rfl | rfl <;> contradiction

theorem isBlank_of_isDigit {c : Char} (hdigit : c.isDigit = true) : isBlank c = false := by
  cases hblank : isBlank c with
  | false => rfl
  | true => rcases eq_of_isBlank hblank with rfl | rfl | rfl | rfl <;> contradiction

theorem isLetter_of_isDigit {c : Char} (hdigit : c.isDigit = true) : isLetter c = false := by
  have hrange : 48 ≤ c.toNat ∧ c.toNat ≤ 57 := by
    simpa [Char.isDigit, UInt32.le_iff_toNat_le] using hdigit
  rw [← Char.ofNat_toNat c]
  generalize c.toNat = code at hrange
  have hcode : code ∈ [48, 49, 50, 51, 52, 53, 54, 55, 56, 57] := by
    simp only [List.mem_cons, List.not_mem_nil, or_false]
    omega
  have hall : ∀ code ∈ [48, 49, 50, 51, 52, 53, 54, 55, 56, 57],
      isLetter (Char.ofNat code) = false := by
    decide
  exact hall code hcode

/-- A word is read as a whole where no letter or digit is behind it. -/
theorem scanAll_word_append {word rest : List Char} (hword : isWord word = true)
    (hend : ∀ c ∈ rest.head?, isWordChar c = false) :
    scanAll (word ++ rest) =
      ⟨.ofWord (String.ofList word), String.ofList word⟩ :: scanAll rest := by
  obtain _ | ⟨c, tail⟩ := word
  · contradiction
  · obtain ⟨hletter, htail⟩ := Bool.and_eq_true_iff.1 hword
    rw [List.all_eq_true] at htail
    have htake : (tail ++ rest).takeWhile isWordChar = tail := by
      rw [List.takeWhile_append_of_pos htail]
      cases rest with
      | nil => simp
      | cons d rest => simp [hend d rfl]
    have hdrop : (tail ++ rest).dropWhile isWordChar = rest := by
      rw [List.dropWhile_append_of_pos htail]
      cases rest with
      | nil => rfl
      | cons d rest => simp [hend d rfl]
    rw [List.cons_append, scanAll_of_not_blank (isBlank_of_isLetter hletter), scan, if_pos hletter,
      htake, hdrop]

/-- A run of digits is read as a whole where no digit is behind it. -/
theorem scanAll_digits_append {digits rest : List Char} (hdigits : isDigitRun digits = true)
    (hend : ∀ c ∈ rest.head?, c.isDigit = false) :
    scanAll (digits ++ rest) = ⟨.integer, String.ofList digits⟩ :: scanAll rest := by
  obtain _ | ⟨c, tail⟩ := digits
  · contradiction
  · have hrun : c.isDigit = true ∧ ∀ d ∈ tail, d.isDigit = true := by
      simpa [isDigitRun] using hdigits
    obtain ⟨hdigit, htail⟩ := hrun
    have htake : (tail ++ rest).takeWhile Char.isDigit = tail := by
      rw [List.takeWhile_append_of_pos htail]
      cases rest with
      | nil => simp
      | cons d rest => simp [hend d rfl]
    have hdrop : (tail ++ rest).dropWhile Char.isDigit = rest := by
      rw [List.dropWhile_append_of_pos htail]
      cases rest with
      | nil => rfl
      | cons d rest => simp [hend d rfl]
    have hletter : ¬ isLetter c = true := by
      rw [isLetter_of_isDigit hdigit]
      decide
    rw [List.cons_append, scanAll_of_not_blank (isBlank_of_isDigit hdigit), scan, if_neg hletter,
      if_pos hdigit, htake, hdrop]

namespace Token

theorem Spelled.lexeme_eq {token : Token} {text : String} (hspelled : token.Spelled)
    (htext : token.kind.spelling? = some text) : token.lexeme = text := by
  obtain ⟨kind, lexeme⟩ := token
  cases kind
  case illegal => contradiction
  case eof => contradiction
  case identifier => contradiction
  case integer => contradiction
  all_goals exact Option.some.inj (Eq.trans (Eq.symm hspelled) htext)

/-- A token of a kind that has just one text. -/
theorem Spelled.eq_mk {token : Token} {kind : TokenKind} {text : String}
    (hspelled : token.Spelled) (hkind : token.kind = kind) (htext : kind.spelling? = some text) :
    token = ⟨kind, text⟩ := by
  obtain ⟨other, lexeme⟩ := token
  obtain rfl : other = kind := hkind
  obtain rfl : lexeme = text := hspelled.lexeme_eq htext
  rfl

theorem spelled_of_spelling? {token : Token} (htext : token.kind.spelling? = some token.lexeme) :
    token.Spelled := by
  obtain ⟨kind, lexeme⟩ := token
  cases kind
  case illegal => contradiction
  case eof => contradiction
  case identifier => contradiction
  case integer => contradiction
  all_goals exact htext

/-- The tokens that are words are read as words, reserved or not. -/
theorem Spelled.isWord {token : Token} (hspelled : token.Spelled)
    (hkind : token.kind ∈ TokenKind.words) :
    isWord token.lexeme.toList = true ∧ TokenKind.ofWord token.lexeme = token.kind := by
  have hlexeme {text : String} : token.kind.spelling? = some text → token.lexeme = text :=
    hspelled.lexeme_eq
  simp only [TokenKind.words, List.mem_cons, List.not_mem_nil, or_false] at hkind
  rcases hkind with hkind | hkind
  · rw [Spelled, hkind] at hspelled
    exact ⟨hspelled.1, by rw [hkind, TokenKind.ofWord_of_not_isReserved hspelled.2]⟩
  · rcases hkind with hkind | hkind | hkind | hkind | hkind | hkind | hkind <;>
      (rw [hkind] at hlexeme ⊢; rw [hlexeme rfl]; exact ⟨rfl, rfl⟩)

end Token

/-- A mark that is a token by itself is read whatever is behind it. -/
theorem scanAll_mark_cons {c : Char} {kind : TokenKind} (hmark : mark? c = some kind)
    (rest : List Char) : scanAll (c :: rest) = ⟨kind, String.ofList [c]⟩ :: scanAll rest := by
  unfold mark? at hmark
  split at hmark <;> cases hmark <;> rw [scanAll_of_not_blank rfl] <;> rfl

/-- A mark that joins with an equals sign is read by itself where there is none behind it. -/
theorem scanAll_joiningMark_cons {c : Char} {alone joined : TokenKind}
    (hmark : joiningMark? c = some (alone, joined)) {rest : List Char}
    (hend : ∀ d ∈ rest.head?, d ≠ '=') :
    scanAll (c :: rest) = ⟨alone, String.ofList [c]⟩ :: scanAll rest := by
  have hscan : ∀ c, joiningMark? c = some (alone, joined) → isLetter c = false →
      c.isDigit = false → scan c rest = (⟨alone, String.ofList [c]⟩, rest) := by
    intro c hmark hletter hdigit
    rw [scan, hletter, hdigit, hmark]
    cases rest with
    | nil => rfl
    | cons d rest =>
        have hne : d ≠ '=' := hend d rfl
        simp [hne]
  unfold joiningMark? at hmark
  split at hmark <;> cases hmark <;>
    rw [scanAll_of_not_blank rfl, hscan _ rfl rfl rfl]

/-- A character that fits nothing is read by itself. -/
theorem scanAll_foreign_cons {c : Char} (hforeign : isForeign c = true) (rest : List Char) :
    scanAll (c :: rest) = ⟨.illegal, String.ofList [c]⟩ :: scanAll rest := by
  simp only [isForeign, Bool.and_eq_true, Bool.not_eq_true', Option.isNone_iff_eq_none] at hforeign
  obtain ⟨⟨⟨⟨hblank, hletter⟩, hdigit⟩, hjoining⟩, hmark⟩ := hforeign
  rw [scanAll_of_not_blank hblank]
  simp [scan, hletter, hdigit, hjoining, hmark]

/-- A token that is spelled right is read from its text, where nothing behind the text joins it. -/
theorem scanAll_lexeme_append {token : Token} (hspelled : token.Spelled) {rest : List Char}
    (hend : ∀ c ∈ rest.head?, token.joins c = false) :
    scanAll (token.lexeme.toList ++ rest) = token :: scanAll rest := by
  obtain ⟨kind, lexeme⟩ := token
  have hword (hkind : kind ∈ TokenKind.words) (hfree : ∀ c ∈ rest.head?, isWordChar c = false) :
      scanAll (lexeme.toList ++ rest) = ⟨kind, lexeme⟩ :: scanAll rest := by
    obtain ⟨hword, hsame⟩ := hspelled.isWord hkind
    rw [scanAll_word_append hword hfree, String.ofList_toList, hsame]
  have hlexeme {text : String} : kind.spelling? = some text → lexeme = text :=
    hspelled.lexeme_eq
  cases kind
  case eof => contradiction
  case illegal =>
      obtain ⟨c, hsingle, hforeign⟩ := hspelled
      dsimp only at hsingle ⊢
      rw [hsingle, List.singleton_append, scanAll_foreign_cons hforeign, ← hsingle,
        String.ofList_toList]
  case integer => rw [scanAll_digits_append hspelled hend, String.ofList_toList]
  case assign =>
      obtain rfl : lexeme = "=" := hlexeme rfl
      exact scanAll_joiningMark_cons rfl fun c hc => by simpa [Token.joins] using hend c hc
  case bang =>
      obtain rfl : lexeme = "!" := hlexeme rfl
      exact scanAll_joiningMark_cons rfl fun c hc => by simpa [Token.joins] using hend c hc
  case equals =>
      obtain rfl : lexeme = "==" := hlexeme rfl
      exact scanAll_of_not_blank rfl _
  case notEquals =>
      obtain rfl : lexeme = "!=" := hlexeme rfl
      exact scanAll_of_not_blank rfl _
  case identifier => exact hword (by decide) hend
  case kwFn => exact hword (by decide) hend
  case kwLet => exact hword (by decide) hend
  case kwTrue => exact hword (by decide) hend
  case kwFalse => exact hword (by decide) hend
  case kwIf => exact hword (by decide) hend
  case kwElse => exact hword (by decide) hend
  case kwReturn => exact hword (by decide) hend
  -- What is left are the marks that stand for themselves.
  all_goals
    have hmark := hlexeme rfl
    dsimp only [TokenKind.spelling?, TokenKind.name, Option.getD] at hmark
    subst hmark
    exact scanAll_mark_cons rfl rest

/-- From its own text just the token is read. -/
theorem Token.Spelled.scanAll_lexeme {token : Token} (hspelled : token.Spelled) :
    scanAll token.lexeme.toList = [token] := by
  have happend : scanAll (token.lexeme.toList ++ []) = token :: scanAll [] :=
    scanAll_lexeme_append hspelled (by simp)
  rwa [List.append_nil, scanAll_nil] at happend

/-- The text of a mark is that of its kind. -/
theorem spelling?_of_mark? {c : Char} {kind : TokenKind} (hmark : mark? c = some kind) :
    kind.spelling? = some (String.ofList [c]) := by
  unfold mark? at hmark
  split at hmark <;> cases hmark <;> rfl

theorem spelling?_of_joiningMark? {c : Char} {alone joined : TokenKind}
    (hmark : joiningMark? c = some (alone, joined)) :
    alone.spelling? = some (String.ofList [c]) ∧
      joined.spelling? = some (String.ofList [c, '=']) := by
  unfold joiningMark? at hmark
  split at hmark <;> cases hmark <;> exact ⟨rfl, rfl⟩

/-- Every token that is read is spelled right. -/
theorem spelled_scan {c : Char} (hblank : isBlank c = false) (rest : List Char) :
    (scan c rest).1.Spelled := by
  unfold scan
  split
  · next hletter =>
      generalize hchars : c :: rest.takeWhile isWordChar = chars
      have hword : isWord chars = true := by
        rw [← hchars, isWord, hletter, List.all_takeWhile]
        rfl
      dsimp only
      cases hfound : TokenKind.reservedWords.lookup (String.ofList chars) with
      | none =>
          rw [TokenKind.ofWord, hfound]
          exact ⟨by rwa [String.toList_ofList], by rw [TokenKind.isReserved, hfound]; rfl⟩
      | some kind =>
          rw [TokenKind.ofWord, hfound]
          exact Token.spelled_of_spelling? (TokenKind.spelling?_of_lookup hfound)
  · next hletter =>
      split
      · next hdigit =>
          have hrun : isDigitRun (c :: rest.takeWhile Char.isDigit) = true := by
            rw [isDigitRun, List.all_cons, hdigit, List.all_takeWhile]
            rfl
          rwa [← String.toList_ofList (l := c :: _)] at hrun
      · next hdigit =>
          cases hjoin : joiningMark? c with
          | some kinds =>
              obtain ⟨halone, hjoined⟩ := spelling?_of_joiningMark? hjoin
              dsimp only
              split
              · exact Token.spelled_of_spelling? hjoined
              · exact Token.spelled_of_spelling? halone
          | none =>
              cases hmark : mark? c with
              | some kind => exact Token.spelled_of_spelling? (spelling?_of_mark? hmark)
              | none =>
                  refine ⟨c, String.toList_ofList, ?_⟩
                  simp [isForeign, hblank, hletter, hdigit, hjoin, hmark]

theorem spelled_of_mem_scanAll {text : List Char} {token : Token} (hmem : token ∈ scanAll text) :
    token.Spelled := by
  fun_induction scanAll text with
  | case1 => contradiction
  | case2 c rest hblank ih => exact ih hmem
  | case3 c rest hblank ih =>
      rcases List.mem_cons.1 hmem with rfl | hlater
      · exact spelled_scan (by simpa using hblank) rest
      · exact ih hlater

/-- A token that a lexer hands out: one that is spelled right, or the end of input. -/
def Token.HandedOut (token : Token) : Prop :=
  token.Spelled ∨ token = .endOfInput

theorem handedOut_of_mem_tokenize {source : String} {token : Token}
    (hmem : token ∈ tokenize source) : token.HandedOut := by
  rw [tokenize_eq_scanAll, List.mem_append, List.mem_singleton] at hmem
  exact hmem.imp_left spelled_of_mem_scanAll

/-- What is behind a token that was read does not join it. -/
theorem joins_scan (c : Char) (rest : List Char) :
    ∀ d ∈ (scan c rest).2.head?, (scan c rest).1.joins d = false := by
  have hword (word : String) (d : Char) :
      Token.joins ⟨.ofWord word, word⟩ d = isWordChar d := by
    have hkind := TokenKind.ofWord_mem_words word
    simp only [TokenKind.words, List.mem_cons, List.not_mem_nil, or_false] at hkind
    rcases hkind with hkind | hkind | hkind | hkind | hkind | hkind | hkind | hkind <;>
      rw [Token.joins, hkind]
  unfold scan
  split
  · intro d hd
    have hhead := List.head?_dropWhile_not isWordChar rest
    rw [Option.mem_def.1 hd] at hhead
    rw [hword]
    simpa using hhead
  · split
    · intro d hd
      have hhead := List.head?_dropWhile_not Char.isDigit rest
      rw [Option.mem_def.1 hd] at hhead
      simpa [Token.joins] using hhead
    · cases hjoin : joiningMark? c with
      | some kinds =>
          unfold joiningMark? at hjoin
          dsimp only
          split
          · intro d _
            split at hjoin <;> cases hjoin <;> rfl
          · next hfree =>
              intro d hd
              have hne : d ≠ '=' := by
                rintro rfl
                obtain ⟨after, hrest⟩ := List.head?_eq_some_iff.1 hd
                exact hfree after hrest
              split at hjoin <;> cases hjoin <;> simp [Token.joins, hne]
      | none =>
          intro d _
          cases hmark : mark? c with
          | none => rfl
          | some kind =>
              unfold mark? at hmark
              split at hmark <;> cases hmark <;> rfl

/-- Two texts one behind the other are read one after the other, where the last token of the first
is not joined by what follows. -/
theorem scanAll_append {text more : List Char}
    (hend : ∀ last ∈ (scanAll text).getLast?, ∀ c ∈ more.head?, last.joins c = false) :
    scanAll (text ++ more) = scanAll text ++ scanAll more := by
  fun_induction scanAll text with
  | case1 => rfl
  | case2 c rest hblank ih =>
      rw [List.cons_append, scanAll_of_blank hblank]
      exact ih hend
  | case3 c rest hblank ih =>
      rw [Bool.not_eq_true] at hblank
      have hjoins : ∀ d ∈ ((scan c rest).2 ++ more).head?, (scan c rest).1.joins d = false := by
        intro d hd
        cases hrest : (scan c rest).2 with
        | nil =>
            rw [hrest, scanAll_nil] at hend
            rw [hrest] at hd
            exact hend _ rfl d hd
        | cons first later =>
            rw [hrest] at hd
            apply joins_scan
            rw [hrest]
            exact hd
      have hlater : ∀ last ∈ (scanAll (scan c rest).2).getLast?, ∀ c ∈ more.head?,
          last.joins c = false := by
        intro last hlast
        apply hend
        rw [List.getLast?_cons, Option.mem_def.1 hlast]
        rfl
      rw [← scan_append c rest, List.append_assoc,
        scanAll_lexeme_append (spelled_scan hblank rest) hjoins, ih hlater, List.cons_append]

end ExprLang
