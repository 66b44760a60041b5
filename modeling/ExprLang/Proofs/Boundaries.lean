/-
A lexer over bytes never loses the boundaries of characters.  Whatever it is asked, it stands
between two characters with the right byte in hand, and every text it cuts out of its source begins
and ends between characters, so that no cut fails.  It is followed on the characters of the source:
where it stands they are split in two, and what it reads from its bytes is what is read from the
second of the two texts.
-/
import ExprLang.ByteLexer
import ExprLang.Proofs.Tiling

namespace ExprLang

/-- A character that is no blank and that begins no token but an illegal one. -/
structure IsUnclassed (c : Char) : Prop where
  isBlank_eq : isBlank c = false
  joiningMark?_eq : joiningMark? c = none
  mark?_eq : mark? c = none
  isLetter_eq : isLetter c = false
  isDigit_eq : c.isDigit = false

/-- What may stand in a word or in a run of digits is no mark. -/
theorem joiningMark?_of_isWordChar {c : Char} (hword : isWordChar c = true) :
    joiningMark? c = none := by
  unfold joiningMark?
  split <;> first | rfl | contradiction

theorem mark?_of_isWordChar {c : Char} (hword : isWordChar c = true) : mark? c = none := by
  unfold mark?
  split <;> first | rfl | contradiction

theorem isWordChar_of_isLetter {c : Char} (hletter : isLetter c = true) : isWordChar c = true := by
  rw [isLetter, Bool.or_eq_true] at hletter
  rcases hletter with halpha | hunderscore
  · simp [isWordChar, Char.isAlphanum, halpha]
  · simp [isWordChar, hunderscore]

theorem isWordChar_of_isDigit {c : Char} (hdigit : c.isDigit = true) : isWordChar c = true := by
  simp [isWordChar, Char.isAlphanum, hdigit]

/-- All classes of characters lie among the characters of one byte. -/
theorem isUnclassed_of_lt {c : Char} (hhigh : 127 < c.toNat) : IsUnclassed c := by
  have hvalue : c.val.toNat = c.toNat := rfl
  constructor
  · rw [Bool.eq_false_iff]
    intro hblank
    rcases eq_of_isBlank hblank with rfl | rfl | rfl | rfl <;> contradiction
  · unfold joiningMark?
    split <;> first | rfl | contradiction
  · unfold mark?
    split <;> first | rfl | contradiction
  · rw [Bool.eq_false_iff]
    intro hletter
    rw [isLetter, Bool.or_eq_true, decide_eq_true_eq] at hletter
    rcases hletter with halpha | rfl
    · rcases Bool.or_eq_true_iff.1 halpha with hupper | hlower
      · have hle := UInt32.le_iff_toNat_le.1 (of_decide_eq_true hupper).2
        exact absurd hhigh (Nat.not_lt.2 (Nat.le_trans hle (by decide)))
      · have hle := UInt32.le_iff_toNat_le.1 (of_decide_eq_true (Bool.and_eq_true_iff.1 hlower).2)
        exact absurd hhigh (Nat.not_lt.2 (Nat.le_trans hle (by decide)))
    · contradiction
  · rw [Bool.eq_false_iff]
    intro hdigit
    simp only [Char.isDigit, UInt32.le_iff_toNat_le, Bool.and_eq_true, decide_eq_true_eq,
      hvalue] at hdigit
    exact absurd hhigh (Nat.not_lt.2 (Nat.le_trans hdigit.2 (by decide)))

theorem toNat_ofUInt8_ofNat {n : Nat} (hsmall : n < 256) :
    (Char.ofUInt8 (UInt8.ofNat n)).toNat = n :=
  (UInt8.toNat_toUInt32 _).trans (UInt8.toNat_ofNat_of_lt' hsmall)

theorem toUInt8_ofUInt8 (byte : UInt8) : (Char.ofUInt8 byte).toUInt8 = byte :=
  UInt8.toUInt8_toUInt32 byte

/-- The first byte of a character is the character itself, if that is one byte wide; else neither
the byte nor the character is of a class. -/
theorem exists_leadByte (c : Char) :
    ∃ byte later, String.utf8EncodeChar c = byte :: later ∧
      (Char.ofUInt8 byte = c ∧ c.utf8Size = 1 ∨
        IsUnclassed (Char.ofUInt8 byte) ∧ IsUnclassed c) := by
  have hvalue : c.val.toNat = c.toNat := rfl
  have hhigh : ∀ lead < 256, 127 < lead → 127 < c.toNat →
      IsUnclassed (Char.ofUInt8 (UInt8.ofNat lead)) ∧ IsUnclassed c := by
    intro lead hsmall hlead hc
    rw [← toNat_ofUInt8_ofNat hsmall] at hlead
    exact ⟨isUnclassed_of_lt hlead, isUnclassed_of_lt hc⟩
  unfold String.utf8EncodeChar
  dsimp only
  rw [hvalue]
  split
  · next hlow =>
      have hsize : c.utf8Size = 1 := Char.utf8Size_eq_one_iff.2 hlow
      exact ⟨_, _, rfl, Or.inl ⟨Char.toNat_inj.1 (toNat_ofUInt8_ofNat (by omega)), hsize⟩⟩
  · split
    · exact ⟨_, _, rfl, Or.inr (hhigh _ (by omega) (by omega) (by omega))⟩
    · split
      · exact ⟨_, _, rfl, Or.inr (hhigh _ (by omega) (by omega) (by omega))⟩
      · exact ⟨_, _, rfl, Or.inr (hhigh _ (by omega) (by omega) (by omega))⟩

/-- At the bytes of a part of a text stands the first byte of what is behind the part. -/
theorem byteAt?_byteLength {source : String} {before ahead : List Char}
    (hsource : source.toList = before ++ ahead) :
    byteAt? source (byteLength before) = (ahead.flatMap String.utf8EncodeChar).head? := by
  have hbytes : source.toUTF8 = before.utf8Encode ++ ahead.utf8Encode := by
    rw [← List.utf8Encode_append, ← hsource, String.utf8Encode_toList]
    rfl
  have hsize : byteLength before = before.utf8Encode.data.size := rfl
  rw [byteAt?, hbytes, ByteArray.data_append, hsize, Array.getElem?_append_right (Nat.le_refl _),
    Nat.sub_self, List.utf8Encode, List.data_toByteArray, List.getElem?_toArray,
    List.head?_eq_getElem?]

theorem IsBoundary.le {text : String} {index : Nat} (hboundary : IsBoundary text index) :
    index ≤ text.utf8ByteSize :=
  hboundary.le_rawEndPos

/-- A cut has a result exactly when its ends are in order, in bounds and between characters. -/
theorem slice?_isSome_iff {text : String} {start stop : Nat} :
    (slice? text start stop).isSome ↔
      start ≤ stop ∧ stop ≤ text.utf8ByteSize ∧ IsBoundary text start ∧ IsBoundary text stop := by
  unfold slice?
  split
  · next hcut => simp [hcut.1, hcut.2.1, hcut.2.2, hcut.2.2.le]
  · next hcut =>
      constructor
      · intro hnone
        contradiction
      · rintro ⟨horder, -, hstart, hstop⟩
        exact absurd ⟨horder, hstart, hstop⟩ hcut

/-- The two bytes of a character are not cut apart. -/
example : slice? "xé" 1 2 = none ∧ slice? "xé" 1 3 = some "é" := by decide +kernel

theorem isBoundary_byteLength {source : String} {before ahead : List Char}
    (hsource : source.toList = before ++ ahead) : IsBoundary source (byteLength before) := by
  have happend : source = String.ofList before ++ String.ofList ahead := by
    rw [← String.ofList_append, ← hsource, String.ofList_toList]
  exact String.Pos.Raw.isValid_iff_exists_append.2 ⟨_, _, happend, rfl⟩

/-- A part of a text is cut out by the bytes in front of it and the bytes up to its end. -/
theorem slice?_eq_some {source : String} {before part behind : List Char}
    (hsource : source.toList = before ++ (part ++ behind)) :
    slice? source (byteLength before) (byteLength (before ++ part)) =
      some (String.ofList part) := by
  have hstop : IsBoundary source (byteLength (before ++ part)) :=
    isBoundary_byteLength (by rw [hsource, List.append_assoc])
  have horder : byteLength before ≤ byteLength (before ++ part) := by
    rw [byteLength_append]
    exact Nat.le_add_right _ _
  rw [slice?, dif_pos ⟨horder, isBoundary_byteLength hsource, hstop⟩, Option.some.injEq,
    ← String.toByteArray_inj, String.toByteArray_ofList, ← extract_toUTF8 hsource,
    ← byteLength_append]
  rfl

theorem byteLength_singleton (c : Char) : byteLength [c] = c.utf8Size := by
  simp [byteLength]

theorem byteLength_append_singleton (before : List Char) (c : Char) :
    byteLength (before ++ [c]) = byteLength before + c.utf8Size := by
  rw [byteLength_append, byteLength_singleton]

namespace ByteLexer

/-- A lexer stands in its source behind one text and in front of another, with the indices and the
byte of that place, and its sequence of tokens has ended or not. -/
structure StandsAt (lexer : ByteLexer) (source : String) (ended : Bool)
    (before ahead : List Char) : Prop where
  source_eq : lexer.source = source
  finished_eq : lexer.finished = ended
  toList_eq : source.toList = before ++ ahead
  position_eq : lexer.position = byteLength before
  readPosition_eq : lexer.readPosition = lexer.position + 1
  byte_eq : lexer.byte = byteAt? source lexer.position

variable {lexer : ByteLexer} {source : String} {ended : Bool} {before ahead rest : List Char}
  {c : Char}

/-- To seek the bytes of a front part of the source is to stand behind that part. -/
theorem standsAt_seek (hsource : lexer.source = source) (hended : lexer.finished = ended)
    (hsplit : source.toList = before ++ ahead) :
    (lexer.seek (byteLength before)).StandsAt source ended before ahead := by
  have hposition : (lexer.seek (byteLength before)).position = byteLength before := by
    rw [seek, hsource]
    exact Nat.min_eq_left (byteLength_le hsplit)
  constructor
  · exact hsource
  · exact hended
  · exact hsplit
  · exact hposition
  · rfl
  · rw [← hsource]
    rfl

theorem standsAt_ofSource (source : String) :
    (ofSource source).StandsAt source false [] source.toList := by
  have hnil : byteLength [] = 0 := rfl
  rw [ofSource, readByte, ← hnil]
  exact standsAt_seek rfl rfl rfl

namespace StandsAt

/-- At the end of the source there is no byte, and reading leaves a lexer there. -/
theorem byte_nil (hstands : lexer.StandsAt source ended before []) : lexer.byte = none := by
  rw [hstands.byte_eq, hstands.position_eq, byteAt?_byteLength hstands.toList_eq]
  rfl

theorem readByte_nil (hstands : lexer.StandsAt source ended before []) :
    lexer.readByte.StandsAt source ended before [] := by
  have hend : byteLength before = lexer.source.utf8ByteSize := by
    rw [← byteLength_toList, hstands.source_eq, hstands.toList_eq, List.append_nil]
  have hsame : lexer.readByte = lexer.seek (byteLength before) := by
    simp [readByte, seek, hstands.readPosition_eq, hstands.position_eq, hend]
  rw [hsame]
  exact standsAt_seek hstands.source_eq hstands.finished_eq hstands.toList_eq

/-- In front of a character a lexer has the character's first byte. -/
theorem byte_cons (hstands : lexer.StandsAt source ended before (c :: rest)) :
    ∃ byte, lexer.byte = some byte ∧
      (Char.ofUInt8 byte = c ∧ c.utf8Size = 1 ∨
        IsUnclassed (Char.ofUInt8 byte) ∧ IsUnclassed c) := by
  obtain ⟨byte, later, hencode, hlead⟩ := exists_leadByte c
  refine ⟨byte, ?_, hlead⟩
  rw [hstands.byte_eq, hstands.position_eq, byteAt?_byteLength hstands.toList_eq,
    List.flatMap_cons, hencode]
  rfl

/-- Reading the byte of a character of one byte is reading the character. -/
theorem readByte_cons (hstands : lexer.StandsAt source ended before (c :: rest))
    (hsize : c.utf8Size = 1) : lexer.readByte.StandsAt source ended (before ++ [c]) rest := by
  have htarget : lexer.readPosition = byteLength (before ++ [c]) := by
    rw [hstands.readPosition_eq, hstands.position_eq, byteLength_append_singleton, hsize]
  rw [readByte, htarget]
  apply standsAt_seek hstands.source_eq hstands.finished_eq
  rw [hstands.toList_eq, List.append_assoc]
  rfl

/-- The byte that is looked at ahead is the one that would be read. -/
theorem peekByte_eq (hstands : lexer.StandsAt source ended before (c :: rest))
    (hsize : c.utf8Size = 1) : lexer.peekByte = lexer.readByte.byte := by
  have hread := hstands.readByte_cons hsize
  rw [hread.byte_eq, hread.position_eq, peekByte, hstands.source_eq, hstands.readPosition_eq,
    hstands.position_eq, byteLength_append_singleton, hsize]

/-- The byte of an equals sign is found in front of an equals sign alone. -/
theorem byte_eq_equals_iff (hstands : lexer.StandsAt source ended before ahead) :
    lexer.byte = some '='.toUInt8 ↔ ∃ behind, ahead = '=' :: behind := by
  cases ahead with
  | nil => simp [hstands.byte_nil]
  | cons c rest =>
      obtain ⟨byte, hbyte, ⟨hlead, -⟩ | ⟨hlead, hunclassed⟩⟩ := hstands.byte_cons
      · constructor
        · intro hequals
          rw [hbyte, Option.some.injEq] at hequals
          rw [← hlead, hequals]
          exact ⟨rest, rfl⟩
        · rintro ⟨behind, hahead⟩
          obtain ⟨rfl, -⟩ := List.cons.inj hahead
          rw [hbyte, ← hlead, toUInt8_ofUInt8]
      · constructor
        · intro hequals
          rw [hbyte, Option.some.injEq] at hequals
          rw [hequals] at hlead
          exact absurd hlead.joiningMark?_eq (by decide)
        · rintro ⟨behind, hahead⟩
          obtain ⟨rfl, -⟩ := List.cons.inj hahead
          exact absurd hunclassed.joiningMark?_eq (by decide)

theorem skipBlanks (hstands : lexer.StandsAt source ended before ahead) :
    lexer.skipBlanks.StandsAt source ended (before ++ ahead.takeWhile isBlank)
      (ahead.dropWhile isBlank) := by
  induction ahead generalizing lexer before with
  | nil =>
      have hblank : lexer.atBlank = false := by simp [atBlank, hstands.byte_nil]
      rw [ByteLexer.skipBlanks, hblank]
      simpa using hstands
  | cons c rest ih =>
      have hblank : lexer.atBlank = isBlank c := by
        obtain ⟨byte, hbyte, ⟨hlead, -⟩ | ⟨hlead, hunclassed⟩⟩ := hstands.byte_cons
        · simp [atBlank, hbyte, hlead]
        · simp [atBlank, hbyte, hlead.isBlank_eq, hunclassed.isBlank_eq]
      rw [ByteLexer.skipBlanks, hblank]
      by_cases hc : isBlank c = true
      · have hsize : c.utf8Size = 1 := by
          rcases eq_of_isBlank hc with rfl | rfl | rfl | rfl <;> rfl
        simpa [hc] using ih (hstands.readByte_cons hsize)
      · simpa [hc] using hstands

/-- What is ahead can be cut out of the source. -/
theorem slice?_ahead (hstands : lexer.StandsAt source ended before ahead) :
    slice? lexer.source lexer.position lexer.source.utf8ByteSize =
      some (String.ofList ahead) := by
  have hall : source.toList = before ++ (ahead ++ []) := by
    rw [List.append_nil]
    exact hstands.toList_eq
  have hend : source.utf8ByteSize = byteLength (before ++ ahead) := by
    rw [← byteLength_toList, hstands.toList_eq]
  rw [hstands.source_eq, hstands.position_eq, hend]
  exact slice?_eq_some hall

/-- A part of what is ahead can be cut out, and a lexer that seeks its end stands behind it. -/
theorem slice?_seek (part : List Char) {behind : List Char} {stop : Nat}
    (hstands : lexer.StandsAt source ended before ahead) (hahead : ahead = part ++ behind)
    (hstop : stop = lexer.position + byteLength part) :
    slice? lexer.source lexer.position stop = some (String.ofList part) ∧
      (lexer.seek stop).StandsAt source ended (before ++ part) behind := by
  have hsplit : source.toList = before ++ (part ++ behind) := by
    rw [hstands.toList_eq, hahead]
  rw [hstop, hstands.position_eq, ← byteLength_append]
  constructor
  · rw [hstands.source_eq]
    exact slice?_eq_some hsplit
  · apply standsAt_seek hstands.source_eq hstands.finished_eq
    rw [hsplit, List.append_assoc]

theorem readRun? {first : Char → Bool}
    (hstands : lexer.StandsAt source ended before (c :: rest)) (hfirst : first c = true)
    (later : Char → Bool) :
    ∃ after,
      lexer.readRun? first later = some (String.ofList (c :: rest.takeWhile later), after) ∧
        after.StandsAt source ended (before ++ c :: rest.takeWhile later)
          (rest.dropWhile later) := by
  have hahead : c :: rest = (c :: rest.takeWhile later) ++ rest.dropWhile later := by simp
  obtain ⟨hslice, hseek⟩ := slice?_seek _ hstands hahead rfl
  refine ⟨_, ?_, hseek⟩
  simp only [ByteLexer.readRun?, hstands.slice?_ahead, Option.bind_eq_bind, Option.bind_some,
    matchLength?, String.toList_ofList, hfirst, if_true, Option.map_some, Option.getD_some]
  rw [← byteLength, hslice]
  rfl

theorem readIllegal? (hstands : lexer.StandsAt source ended before (c :: rest)) :
    ∃ after, lexer.readIllegal? = some (⟨.illegal, String.ofList [c]⟩, after) ∧
      after.StandsAt source ended (before ++ [c]) rest := by
  obtain ⟨hslice, hseek⟩ := slice?_seek [c] hstands rfl rfl
  rw [byteLength_singleton] at hslice hseek
  refine ⟨_, ?_, hseek⟩
  simp [ByteLexer.readIllegal?, hstands.slice?_ahead, hslice]

/-- A mark that joins with an equals sign is read as `scan` reads it. -/
theorem pairToken? {alone joined : TokenKind}
    (hstands : lexer.StandsAt source ended before (c :: rest)) (hsize : c.utf8Size = 1)
    (hjoin : joiningMark? c = some (alone, joined)) (hletter : isLetter c = false)
    (hdigit : c.isDigit = false) :
    ∃ last, lexer.pairToken? joined alone = some ((scan c rest).1, last) ∧
      last.readByte.StandsAt source ended (before ++ (scan c rest).1.lexeme.toList)
        (scan c rest).2 := by
  have hread := hstands.readByte_cons hsize
  have hpeek := hread.byte_eq_equals_iff
  rw [← hstands.peekByte_eq hsize] at hpeek
  by_cases hequals : lexer.peekByte = some '='.toUInt8
  · obtain ⟨behind, rfl⟩ := hpeek.1 hequals
    have hscan : scan c ('=' :: behind) = (⟨joined, String.ofList [c, '=']⟩, behind) := by
      simp [scan, hletter, hdigit, hjoin]
    have hstop : lexer.readByte.position + 1 = lexer.position + byteLength ([c] ++ ['=']) := by
      rw [hread.position_eq, byteLength_append_singleton, byteLength_append_singleton,
        byteLength_singleton, hsize, hstands.position_eq]
      rfl
    obtain ⟨hslice, -⟩ := slice?_seek ([c] ++ ['=']) hstands rfl hstop
    have hsource : lexer.readByte.source = lexer.source := rfl
    refine ⟨lexer.readByte, ?_, ?_⟩
    · simp only [hscan, ByteLexer.pairToken?, if_pos hequals, hsource, hslice]
      rfl
    · rw [hscan]
      simpa using hread.readByte_cons rfl
  · have hscan : scan c rest = (⟨alone, String.ofList [c]⟩, rest) := by
      simp only [scan, hletter, hdigit, hjoin, Bool.false_eq_true, if_false]
      split
      · next behind => exact absurd (hpeek.2 ⟨behind, rfl⟩) hequals
      · rfl
    have hstop : lexer.readPosition = lexer.position + byteLength [c] := by
      rw [hstands.readPosition_eq, byteLength_singleton, hsize]
    obtain ⟨hslice, -⟩ := slice?_seek [c] hstands rfl hstop
    refine ⟨lexer, ?_, ?_⟩
    · rw [hscan, ByteLexer.pairToken?, if_neg hequals, hslice]
      rfl
    · rw [hscan]
      simpa using hread

/-- A character that fits no class is read as one illegal token. -/
theorem tokenAt?_unclassed {byte : UInt8}
    (hstands : lexer.StandsAt source ended before (c :: rest)) (hbyte : lexer.byte = some byte)
    (hlead : IsUnclassed (Char.ofUInt8 byte)) (hunclassed : IsUnclassed c) :
    ∃ after, lexer.tokenAt? = some ((scan c rest).1, after) ∧
      after.StandsAt source ended (before ++ (scan c rest).1.lexeme.toList) (scan c rest).2 := by
  have hscan : scan c rest = (⟨.illegal, String.ofList [c]⟩, rest) := by
    simp [scan, hunclassed.isLetter_eq, hunclassed.isDigit_eq, hunclassed.joiningMark?_eq,
      hunclassed.mark?_eq]
  obtain ⟨after, hillegal, hafter⟩ := hstands.readIllegal?
  refine ⟨after, ?_, ?_⟩
  · simp [hscan, tokenAt?, hbyte, hlead.joiningMark?_eq, hlead.mark?_eq, hlead.isLetter_eq,
      hlead.isDigit_eq, hillegal]
  · simpa [hscan] using hafter

/-- The token a lexer reads at a character is the one `scan` reads there. -/
theorem tokenAt?_cons (hstands : lexer.StandsAt source ended before (c :: rest))
    (hblank : isBlank c = false) :
    ∃ after, lexer.tokenAt? = some ((scan c rest).1, after) ∧
      after.StandsAt source ended (before ++ (scan c rest).1.lexeme.toList) (scan c rest).2 := by
  obtain ⟨byte, hbyte, ⟨rfl, hsize⟩ | ⟨hlead, hunclassed⟩⟩ := hstands.byte_cons
  -- A character of one byte is tried class by class; one of several bytes has no class.
  · cases hletter : isLetter (Char.ofUInt8 byte) with
    | true =>
        have hword := isWordChar_of_isLetter hletter
        obtain ⟨after, hrun, hafter⟩ := hstands.readRun? hletter isWordChar
        refine ⟨after, ?_, ?_⟩
        · simp [tokenAt?, hbyte, joiningMark?_of_isWordChar hword, mark?_of_isWordChar hword,
            hletter, hrun, scan]
        · simpa [scan, hletter] using hafter
    | false =>
    cases hdigit : (Char.ofUInt8 byte).isDigit with
    | true =>
        have hword := isWordChar_of_isDigit hdigit
        obtain ⟨after, hrun, hafter⟩ := hstands.readRun? hdigit Char.isDigit
        refine ⟨after, ?_, ?_⟩
        · simp [tokenAt?, hbyte, joiningMark?_of_isWordChar hword, mark?_of_isWordChar hword,
            hletter, hdigit, hrun, scan]
        · simpa [scan, hletter, hdigit] using hafter
    | false =>
    cases hjoin : joiningMark? (Char.ofUInt8 byte) with
    | some kinds =>
        obtain ⟨alone, joined⟩ := kinds
        obtain ⟨last, hpair, hlast⟩ := hstands.pairToken? hsize hjoin hletter hdigit
        exact ⟨last.readByte, by simp [tokenAt?, hbyte, hjoin, hpair], hlast⟩
    | none =>
    cases hmark : mark? (Char.ofUInt8 byte) with
    | some kind =>
        refine ⟨lexer.readByte, ?_, ?_⟩
        · simp [tokenAt?, hbyte, hjoin, hmark, scan, hletter, hdigit]
        · simpa [hjoin, hmark, scan, hletter, hdigit] using hstands.readByte_cons hsize
    | none =>
        have hunclassed : IsUnclassed (Char.ofUInt8 byte) :=
          ⟨hblank, hjoin, hmark, hletter, hdigit⟩
        exact hstands.tokenAt?_unclassed hbyte hunclassed hunclassed
  · exact hstands.tokenAt?_unclassed hbyte hlead hunclassed

end StandsAt

/-- A lexer over bytes stands where a lexer over characters stands. -/
def Mirrors (lexer : ByteLexer) (source : String) (running : Lexer) : Prop :=
  ∃ before, lexer.StandsAt source running.ended before running.rest ∧
    running.position = byteLength before

namespace Mirrors

variable {running : Lexer}

theorem ofSource (source : String) :
    (ByteLexer.ofSource source).Mirrors source (Lexer.ofSource source) :=
  ⟨[], standsAt_ofSource source, rfl⟩

theorem position_eq (hmirrors : lexer.Mirrors source running) :
    lexer.position = running.position := by
  obtain ⟨before, hstands, hposition⟩ := hmirrors
  rw [hstands.position_eq, hposition]

/-- Reading a token from the bytes is reading it from the characters. -/
theorem nextToken? (hmirrors : lexer.Mirrors source running) :
    ∃ after, lexer.nextToken? = some (running.nextToken.1, after) ∧
      after.Mirrors source running.nextToken.2 := by
  obtain ⟨before, hstands, hposition⟩ := hmirrors
  have hskip := hstands.skipBlanks
  have hgap := (isGap_takeWhile running.rest).byteLength_eq
  unfold Lexer.nextToken
  dsimp only
  cases hrest : running.rest.dropWhile isBlank with
  | nil =>
      rw [hrest] at hskip
      refine ⟨lexer.skipBlanks.readByte, ?_, _, hskip.readByte_nil, ?_⟩
      · simp [ByteLexer.nextToken?, tokenAt?, hskip.byte_nil]
      · rw [byteLength_append, hgap, hposition]
  | cons c rest =>
      rw [hrest] at hskip
      have hblank : isBlank c = false := by
        have hhead := List.head?_dropWhile_not isBlank running.rest
        simpa [hrest] using hhead
      obtain ⟨after, htoken, hafter⟩ := hskip.tokenAt?_cons hblank
      refine ⟨after, htoken, _, hafter, ?_⟩
      rw [byteLength_append, byteLength_append, hgap, hposition, byteLength_toList]

theorem finished_eq (hmirrors : lexer.Mirrors source running) :
    lexer.finished = running.ended := by
  obtain ⟨before, hstands, -⟩ := hmirrors
  exact hstands.finished_eq

/-- Ending the sequence of tokens moves no lexer. -/
theorem setFinished (hmirrors : lexer.Mirrors source running) (ended : Bool) :
    { lexer with finished := ended }.Mirrors source ⟨running.position, running.rest, ended⟩ := by
  obtain ⟨before, hstands, hposition⟩ := hmirrors
  exact ⟨before, { hstands with finished_eq := rfl }, hposition⟩

theorem next? (hmirrors : lexer.Mirrors source running) :
    ∃ after, lexer.next? = some (running.next?.1, after) ∧
      after.Mirrors source running.next?.2 := by
  have hfinished := hmirrors.finished_eq
  cases hended : running.ended with
  | true =>
      rw [hended] at hfinished
      refine ⟨lexer, ?_, ?_⟩
      · simp [ByteLexer.next?, Lexer.next?, hfinished, hended]
      · simpa [Lexer.next?, hended] using hmirrors
  | false =>
      rw [hended] at hfinished
      obtain ⟨after, htoken, hafter⟩ := hmirrors.nextToken?
      refine ⟨{ after with finished := running.nextToken.1.kind = .eof }, ?_, ?_⟩
      · simp [ByteLexer.next?, Lexer.next?, hfinished, hended, htoken]
      · simpa [Lexer.next?, hended] using hafter.setFinished _

/-- One use yields the same of both lexers and leaves them at the same place. -/
theorem use? (hmirrors : lexer.Mirrors source running) (use : LexerUse) :
    ∃ after, lexer.use? use = some ((running.use use).1, after) ∧
      after.Mirrors source (running.use use).2 := by
  cases use with
  | nextToken =>
      obtain ⟨after, htoken, hafter⟩ := hmirrors.nextToken?
      exact ⟨after, by simp [ByteLexer.use?, Lexer.use, htoken], hafter⟩
  | next => exact hmirrors.next?
  | copy => exact ⟨lexer.copy, rfl, hmirrors⟩

theorem useAll? (hmirrors : lexer.Mirrors source running) (uses : List LexerUse) :
    ∃ after, lexer.useAll? uses = some ((running.useAll uses).1, after) ∧
      after.Mirrors source (running.useAll uses).2 := by
  induction uses generalizing lexer running with
  | nil => exact ⟨lexer, rfl, hmirrors⟩
  | cons use uses ih =>
      obtain ⟨between, huse, hbetween⟩ := hmirrors.use? use
      obtain ⟨after, huses, hafter⟩ := ih hbetween
      exact ⟨after, by simp [ByteLexer.useAll?, Lexer.useAll, huse, huses], hafter⟩

end Mirrors

/-- What is true of a lexer whenever it is not in the middle of a use. -/
structure IsPlacedIn (lexer : ByteLexer) (source : String) : Prop where
  source_eq : lexer.source = source
  readPosition_eq : lexer.readPosition = lexer.position + 1
  position_le : lexer.position ≤ source.utf8ByteSize
  byte_eq : lexer.byte = byteAt? source lexer.position
  byte_isSome_iff : lexer.byte.isSome ↔ lexer.position < source.utf8ByteSize
  isBoundary : IsBoundary source lexer.position

theorem Mirrors.isPlacedIn {running : Lexer} (hmirrors : lexer.Mirrors source running) :
    lexer.IsPlacedIn source := by
  obtain ⟨before, hstands, -⟩ := hmirrors
  constructor
  · exact hstands.source_eq
  · exact hstands.readPosition_eq
  · rw [hstands.position_eq]
    exact byteLength_le hstands.toList_eq
  · exact hstands.byte_eq
  · rw [hstands.byte_eq]
    simp [byteAt?]
  · rw [hstands.position_eq]
    exact isBoundary_byteLength hstands.toList_eq

end ByteLexer

/-- No use moves a lexer back. -/
theorem Lexer.position_le_use (lexer : Lexer) (use : LexerUse) :
    lexer.position ≤ (lexer.use use).2.position := by
  have htoken : lexer.position ≤ lexer.nextToken.2.position := by
    obtain ⟨gap, -, -, hmoved⟩ := lexer.nextToken_moves
    omega
  cases use with
  | nextToken => exact htoken
  | next =>
      rcases lexer.next?_cases with hsame | ⟨hposition, -⟩
      · exact Nat.le_of_eq (congrArg position hsame.symm)
      · exact Nat.le_trans htoken (Nat.le_of_eq hposition.symm)
  | copy => exact Nat.le_refl _

/-- A lexer over the bytes of a source never fails to answer, in whatever order it is asked for
tokens and for items of its sequence of tokens and is copied, so each text it cuts out of the source
lies between two boundaries of characters, in order and in bounds.  It is between two uses at such a
boundary, with the byte there and the index behind it, and no use moves it back.  What it yields and
where it stands is what the lexer over characters yields and where that stands. -/
theorem ByteLexer.exists_isPlacedIn_useAll (source : String) (uses : List LexerUse) :
    ∃ lexer, (ByteLexer.ofSource source).useAll? uses =
        some (((Lexer.ofSource source).useAll uses).1, lexer) ∧
      lexer.IsPlacedIn source ∧
      lexer.position = ((Lexer.ofSource source).useAll uses).2.position ∧
      ∀ use, ∃ yielded after, lexer.use? use = some (yielded, after) ∧
        after.IsPlacedIn source ∧ lexer.position ≤ after.position := by
  obtain ⟨lexer, huses, hmirrors⟩ := (ByteLexer.Mirrors.ofSource source).useAll? uses
  refine ⟨lexer, huses, hmirrors.isPlacedIn, hmirrors.position_eq, ?_⟩
  intro use
  obtain ⟨after, huse, hafter⟩ := hmirrors.use? use
  refine ⟨_, after, huse, hafter.isPlacedIn, ?_⟩
  rw [hmirrors.position_eq, hafter.position_eq]
  exact Lexer.position_le_use _ use

end ExprLang
