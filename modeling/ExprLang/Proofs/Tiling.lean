/-
A source is its tokens and the blanks around them.  However a lexer has been used, it stands at a
byte of its source with the text from there on in front of it; the next token lies behind nothing
but blanks, and the lexer then stands right behind the token.  So nothing is lost and nothing is
read twice.
-/
import ExprLang.Proofs.Spelling

namespace ExprLang

/-- Nothing but spaces, tabs, line feeds and carriage returns. -/
def IsGap (text : List Char) : Prop :=
  ∀ c ∈ text, c = ' ' ∨ c = '\t' ∨ c = '\n' ∨ c = '\r'

/-- The bytes of spaces, tabs, line feeds and carriage returns. -/
def gapBytes : List UInt8 :=
  [0x20, 0x09, 0x0A, 0x0D]

/-- A text that is the texts of tokens in order, with a gap in front of each of them and a gap at
the end.  No token is empty. -/
inductive Tiles : List Char → List Token → Prop
  | gap {gap : List Char} : IsGap gap → Tiles gap []
  | token {gap : List Char} {token : Token} {text : List Char} {tokens : List Token} :
      IsGap gap → token.lexeme ≠ "" → Tiles text tokens →
      Tiles (gap ++ token.lexeme.toList ++ text) (token :: tokens)

theorem isGap_nil : IsGap [] := by
  intro c hc
  contradiction

theorem isGap_takeWhile (text : List Char) : IsGap (text.takeWhile isBlank) :=
  fun c hc => eq_of_isBlank (List.all_eq_true.1 List.all_takeWhile c hc)

theorem IsGap.cons {c : Char} {gap : List Char} (hblank : isBlank c = true) (hgap : IsGap gap) :
    IsGap (c :: gap) := by
  intro d hd
  rcases List.mem_cons.1 hd with rfl | hd
  · exact eq_of_isBlank hblank
  · exact hgap d hd

/-- A gap in front of a tiled text widens its first gap. -/
theorem Tiles.cons_gap {c : Char} {text : List Char} {tokens : List Token}
    (hblank : isBlank c = true) (htiles : Tiles text tokens) : Tiles (c :: text) tokens := by
  cases htiles with
  | gap hgap => exact .gap (hgap.cons hblank)
  | token hgap hlexeme hlater => exact .token (hgap.cons hblank) hlexeme hlater

/-- A token that is read has a text. -/
theorem lexeme_scan_ne_empty (c : Char) (rest : List Char) : (scan c rest).1.lexeme ≠ "" := by
  intro hempty
  have hlength := congrArg List.length (scan_append c rest)
  have hshorter := scan_length_le c rest
  rw [hempty] at hlength
  simp only [String.toList_empty, List.nil_append, List.length_cons] at hlength
  omega

/-- The tokens of a text tile it. -/
theorem tiles_scanAll (text : List Char) : Tiles text (scanAll text) := by
  fun_induction scanAll text with
  | case1 => exact .gap isGap_nil
  | case2 c rest hblank ih => exact ih.cons_gap hblank
  | case3 c rest hblank ih =>
      have htiles := Tiles.token isGap_nil (lexeme_scan_ne_empty c rest) ih
      rwa [List.nil_append, scan_append] at htiles

/-- The number of bytes of a text. -/
def byteLength (text : List Char) : Nat :=
  (String.ofList text).utf8ByteSize

theorem byteLength_append (first second : List Char) :
    byteLength (first ++ second) = byteLength first + byteLength second := by
  rw [byteLength, String.ofList_append, String.utf8ByteSize_append]
  rfl

theorem byteLength_toList (text : String) : byteLength text.toList = text.utf8ByteSize := by
  rw [byteLength, String.ofList_toList]

/-- A front part of a source has at most all its bytes. -/
theorem byteLength_le {source : String} {before ahead : List Char}
    (hsource : source.toList = before ++ ahead) : byteLength before ≤ source.utf8ByteSize := by
  rw [← byteLength_toList, hsource, byteLength_append]
  exact Nat.le_add_right _ _

/-- Every blank is one byte wide. -/
theorem IsGap.byteLength_eq {gap : List Char} (hgap : IsGap gap) :
    byteLength gap = gap.length := by
  induction gap with
  | nil => rfl
  | cons c gap ih =>
      have hc : byteLength [c] = 1 := by
        rcases hgap c List.mem_cons_self with rfl | rfl | rfl | rfl <;> rfl
      rw [← List.singleton_append, byteLength_append, hc,
        ih fun d hd => hgap d (List.mem_cons_of_mem c hd), List.length_append]
      rfl

/-- The bytes of a part of a source are found at the bytes in front of it. -/
theorem extract_toUTF8 {source : String} {before part behind : List Char}
    (hsource : source.toList = before ++ (part ++ behind)) :
    source.toUTF8.extract (byteLength before) (byteLength before + byteLength part) =
      part.utf8Encode := by
  have hbytes : source.toUTF8 = before.utf8Encode ++ (part.utf8Encode ++ behind.utf8Encode) := by
    rw [← List.utf8Encode_append, ← List.utf8Encode_append, ← hsource, String.utf8Encode_toList]
    rfl
  have hbefore : byteLength before = before.utf8Encode.size := rfl
  have hpart : byteLength part = part.utf8Encode.size := rfl
  have hskip := ByteArray.extract_append_size_add (a := before.utf8Encode)
    (b := part.utf8Encode ++ behind.utf8Encode) (i := 0) (j := part.utf8Encode.size)
  rw [hbytes, hbefore, hpart]
  rw [Nat.add_zero] at hskip
  rw [hskip, ByteArray.extract_append_eq_left rfl]

/-- The bytes of a gap are those of its blanks. -/
theorem IsGap.mem_gapBytes {gap : List Char} (hgap : IsGap gap) {byte : UInt8}
    (hbyte : byte ∈ gap.utf8Encode.data) : byte ∈ gapBytes := by
  simp only [List.utf8Encode, List.data_toByteArray, List.mem_toArray, List.mem_flatMap] at hbyte
  obtain ⟨c, hc, hbyte⟩ := hbyte
  have hall : (String.utf8EncodeChar c).all (gapBytes.contains ·) = true := by
    rcases hgap c hc with rfl | rfl | rfl | rfl <;> rfl
  exact List.contains_iff_mem.1 (List.all_eq_true.1 hall byte hbyte)

/-- From one place in a source to a later one lie blanks and then just the bytes of a token. -/
def StepsOver (source : String) (position : Nat) (token : Token) (after : Nat) : Prop :=
  ∃ start, position ≤ start ∧ start ≤ after ∧ after ≤ source.utf8ByteSize ∧
    (∀ byte ∈ (source.toUTF8.extract position start).data, byte ∈ gapBytes) ∧
    source.toUTF8.extract start after = token.lexeme.toUTF8

namespace Lexer

/-- What a lexer becomes by any row of requests for a token, by either way of asking. -/
inductive Reaches (lexer : Lexer) : Lexer → Prop
  | refl : Reaches lexer lexer
  | nextToken {later : Lexer} : Reaches lexer later → Reaches lexer later.nextToken.2
  | next? {later : Lexer} : Reaches lexer later → Reaches lexer later.next?.2

/-- A lexer stands at a byte of a source, and the text in front of it is the source from there
on. -/
def StandsIn (lexer : Lexer) (source : String) : Prop :=
  ∃ before, source.toList = before ++ lexer.rest ∧ lexer.position = byteLength before

theorem standsIn_ofSource (source : String) : (ofSource source).StandsIn source :=
  ⟨[], rfl, rfl⟩

/-- A lexer moves over a gap and the text of the token it answers with. -/
theorem nextToken_moves (lexer : Lexer) :
    ∃ gap, IsGap gap ∧
      lexer.rest = gap ++ (lexer.nextToken.1.lexeme.toList ++ lexer.nextToken.2.rest) ∧
      lexer.nextToken.2.position =
        lexer.position + byteLength gap + lexer.nextToken.1.lexeme.utf8ByteSize := by
  refine ⟨lexer.rest.takeWhile isBlank, isGap_takeWhile lexer.rest, ?_, ?_⟩
  · have hsplit := List.takeWhile_append_dropWhile (p := isBlank) (l := lexer.rest)
    unfold nextToken
    dsimp only
    split
    · next hrest =>
        rw [hrest] at hsplit
        exact hsplit.symm
    · next c rest hrest =>
        rw [hrest, ← scan_append] at hsplit
        exact hsplit.symm
  · rw [(isGap_takeWhile lexer.rest).byteLength_eq]
    unfold nextToken
    dsimp only
    split <;> rfl

theorem StandsIn.nextToken {lexer : Lexer} {source : String} (hstands : lexer.StandsIn source) :
    lexer.nextToken.2.StandsIn source := by
  obtain ⟨before, hsource, hposition⟩ := hstands
  obtain ⟨gap, -, hrest, hmoved⟩ := lexer.nextToken_moves
  refine ⟨before ++ gap ++ lexer.nextToken.1.lexeme.toList, ?_, ?_⟩
  · rw [hsource, hrest]
    simp only [List.append_assoc]
  · rw [hmoved, hposition, byteLength_append, byteLength_append]
    simp [byteLength]

/-- Either way of asking moves a lexer to the same place, unless the sequence of tokens has
ended. -/
theorem next?_cases (lexer : Lexer) :
    lexer.next?.2 = lexer ∨
      lexer.next?.2.position = lexer.nextToken.2.position ∧
        lexer.next?.2.rest = lexer.nextToken.2.rest := by
  unfold Lexer.next?
  split
  · exact Or.inl rfl
  · exact Or.inr ⟨rfl, rfl⟩

theorem Reaches.standsIn {lexer later : Lexer} {source : String} (hreaches : lexer.Reaches later)
    (hstands : lexer.StandsIn source) : later.StandsIn source := by
  induction hreaches with
  | refl => exact hstands
  | nextToken _ ih => exact ih.nextToken
  | @next? last _ ih =>
      rcases last.next?_cases with hsame | ⟨hposition, hrest⟩
      · rw [hsame]
        exact ih
      · obtain ⟨before, hsource, hplace⟩ := ih.nextToken
        exact ⟨before, by rw [hrest]; exact hsource, by rw [hposition]; exact hplace⟩

/-- Where the text is used up, a lexer stays. -/
theorem Reaches.eq_of_rest_nil {lexer later : Lexer} (hreaches : lexer.Reaches later)
    (hrest : lexer.rest = []) : later.rest = [] ∧ later.position = lexer.position := by
  induction hreaches with
  | refl => exact ⟨hrest, rfl⟩
  | nextToken _ ih => rwa [nextToken_of_rest_nil ih.1]
  | @next? last _ ih =>
      rcases last.next?_cases with hsame | ⟨hposition, hbehind⟩
      · rwa [hsame]
      · rw [nextToken_of_rest_nil ih.1] at hposition hbehind
        rwa [hposition, hbehind]

theorem StandsIn.position_le {lexer : Lexer} {source : String} (hstands : lexer.StandsIn source) :
    lexer.position ≤ source.utf8ByteSize := by
  obtain ⟨before, hsource, hposition⟩ := hstands
  rw [hposition]
  exact byteLength_le hsource

/-- With no text left a lexer stands at the end of its source. -/
theorem StandsIn.position_eq {lexer : Lexer} {source : String} (hstands : lexer.StandsIn source)
    (hrest : lexer.rest = []) : lexer.position = source.utf8ByteSize := by
  obtain ⟨before, hsource, hposition⟩ := hstands
  rw [hrest, List.append_nil] at hsource
  rw [hposition, ← hsource, byteLength_toList]

/-- The bytes from where a lexer stands are those of a gap and then those of the token it answers
with, and behind these it stands next. -/
theorem StandsIn.stepsOver_nextToken {lexer : Lexer} {source : String}
    (hstands : lexer.StandsIn source) :
    StepsOver source lexer.position lexer.nextToken.1 lexer.nextToken.2.position := by
  have hbound := hstands.nextToken.position_le
  obtain ⟨before, hsource, hposition⟩ := hstands
  obtain ⟨gap, hgap, hrest, hmoved⟩ := lexer.nextToken_moves
  rw [hrest] at hsource
  have hstart : byteLength (before ++ gap) = lexer.position + byteLength gap := by
    rw [byteLength_append, hposition]
  refine ⟨byteLength (before ++ gap), ?_, ?_, hbound, ?_, ?_⟩
  · rw [hstart]
    exact Nat.le_add_right _ _
  · rw [hstart, hmoved]
    exact Nat.le_add_right _ _
  · intro byte hbyte
    rw [hstart, hposition, extract_toUTF8 hsource] at hbyte
    exact hgap.mem_gapBytes hbyte
  · rw [← List.append_assoc] at hsource
    rw [hmoved, ← hstart, ← byteLength_toList, extract_toUTF8 hsource, String.utf8Encode_toList]
    rfl

/-- A lexer that has answered with the end of input stands at the end of its source, and it stays
there and answers with nothing else. -/
theorem StandsIn.ends {lexer : Lexer} {source : String} (hstands : lexer.StandsIn source)
    (heof : lexer.nextToken.1.kind = .eof) :
    lexer.nextToken.1 = .endOfInput ∧ lexer.nextToken.2.position = source.utf8ByteSize ∧
      ∀ later, lexer.nextToken.2.Reaches later →
        later.nextToken.1 = .endOfInput ∧ later.position = lexer.nextToken.2.position ∧
        later.nextToken.2.position = later.position := by
  have hrest := nextToken_rest_eq_nil heof
  refine ⟨nextToken_eq_endOfInput heof, hstands.nextToken.position_eq hrest, ?_⟩
  intro later hlater
  obtain ⟨hnone, hplace⟩ := hlater.eq_of_rest_nil hrest
  rw [nextToken_of_rest_nil hnone]
  exact ⟨rfl, hplace, rfl⟩

end Lexer

end ExprLang
