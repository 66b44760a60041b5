/-
What a listing tells of the tokens of a source.  Each token is shown on a line of its own, and no
line contains a line break, as no token does; so the text of a listing can be cut back into its
lines.  A line tells its token: up to its first blank it is the name of the kind, and the kinds that
show no text have just one.
-/
import ExprLang.CommandLine
import ExprLang.Proofs.Spelling

namespace ExprLang

/-- Cut at its line breaks, a text of lines gives back the lines, and nothing behind the last
break. -/
theorem splitOn_linesText {lines : List String} (hlines : ∀ line ∈ lines, '\n' ∉ line.toList) :
    (linesText lines).toList.splitOn '\n' = lines.map String.toList ++ [[]] := by
  induction lines with
  | nil => simp [linesText]
  | cons line rest ih =>
      have htext : (linesText (line :: rest)).toList =
          line.toList ++ '\n' :: (linesText rest).toList := by
        simp [linesText, String.join_cons]
      rw [htext, List.splitOn_append_cons_self_of_not_mem (hlines line List.mem_cons_self),
        ih fun other hother => hlines other (List.mem_cons_of_mem _ hother)]
      rfl

/-- Lines without line breaks can be told from their text. -/
theorem linesText_injective {lines others : List String}
    (hlines : ∀ line ∈ lines, '\n' ∉ line.toList) (hothers : ∀ line ∈ others, '\n' ∉ line.toList)
    (hsame : linesText lines = linesText others) : lines = others := by
  have hsplit := splitOn_linesText hlines
  rw [hsame, splitOn_linesText hothers, List.append_left_inj] at hsplit
  exact ((List.map_inj_right fun _ _ => String.toList_inj.1).1 hsplit).symm

/-- No kind has a blank in its name. -/
theorem TokenKind.isBlank_of_mem_name (kind : TokenKind) {c : Char} (hc : c ∈ kind.name.toList) :
    isBlank c = false := by
  have hall : all.all (fun kind => kind.name.toList.all fun c => !isBlank c) = true := by decide
  have hname := List.all_eq_true.1 hall kind (mem_all kind)
  simpa using List.all_eq_true.1 hname c hc

theorem isBlank_of_isWordChar {c : Char} (hword : isWordChar c = true) : isBlank c = false := by
  cases hblank : isBlank c with
  | false => rfl
  | true => rcases eq_of_isBlank hblank with rfl | rfl | rfl | rfl <;> contradiction

namespace Token

/-- The kinds of which a listing shows the text. -/
def shownKinds : List TokenKind := [.identifier, .integer, .illegal]

theorem listing_of_mem {token : Token} (hkind : token.kind ∈ shownKinds) :
    token.listing = token.kind.name ++ " (" ++ token.lexeme ++ ")" :=
  if_pos (isOneOf_iff.2 hkind)

theorem listing_of_not_mem {token : Token} (hkind : token.kind ∉ shownKinds) :
    token.listing = token.kind.name :=
  if_neg (mt isOneOf_iff.1 hkind)

/-- The text that a listing shows has no blanks in it. -/
theorem Spelled.isBlank_of_mem {token : Token} (hspelled : token.Spelled)
    (hkind : token.kind ∈ shownKinds) {c : Char} (hc : c ∈ token.lexeme.toList) :
    isBlank c = false := by
  simp only [shownKinds, List.mem_cons, List.not_mem_nil, or_false] at hkind
  rcases hkind with hkind | hkind | hkind
  · obtain ⟨hword, -⟩ := hspelled.isWord (by rw [hkind]; decide)
    cases htext : token.lexeme.toList with
    | nil =>
        rw [htext] at hc
        contradiction
    | cons first rest =>
        rw [htext] at hword hc
        obtain ⟨hletter, hrest⟩ := Bool.and_eq_true_iff.1 hword
        rcases List.mem_cons.1 hc with rfl | hc
        · exact isBlank_of_isLetter hletter
        · exact isBlank_of_isWordChar (List.all_eq_true.1 hrest c hc)
  · have hrun := hspelled.isDigitRun hkind
    rw [ExprLang.isDigitRun, Bool.and_eq_true] at hrun
    exact isBlank_of_isDigit (List.all_eq_true.1 hrun.2 c hc)
  · rw [Spelled, hkind] at hspelled
    obtain ⟨only, htext, hforeign⟩ := hspelled
    rw [htext, List.mem_singleton] at hc
    subst hc
    simp only [isForeign, Bool.and_eq_true, Bool.not_eq_true'] at hforeign
    exact hforeign.1.1.1.1

/-- A line of a listing has no line break in it. -/
theorem not_mem_listing {source : String} {token : Token} (htoken : token ∈ tokenize source) :
    '\n' ∉ token.listing.toList := by
  have hname : '\n' ∉ token.kind.name.toList := fun hc =>
    absurd (token.kind.isBlank_of_mem_name hc) (by decide)
  by_cases hkind : token.kind ∈ shownKinds
  · have htext : '\n' ∉ token.lexeme.toList := by
      rcases handedOut_of_mem_tokenize htoken with hspelled | rfl
      · exact fun hc => absurd (hspelled.isBlank_of_mem hkind hc) (by decide)
      · exact List.not_mem_nil
    rw [listing_of_mem hkind]
    simp [hname, htext]
  · rwa [listing_of_not_mem hkind]

/-- Up to its first blank a line of a listing is the name of the kind. -/
theorem head?_splitOn_listing (token : Token) :
    (token.listing.toList.splitOn ' ').head? = some token.kind.name.toList := by
  have hname : ' ' ∉ token.kind.name.toList := fun hc =>
    absurd (token.kind.isBlank_of_mem_name hc) (by decide)
  by_cases hkind : token.kind ∈ shownKinds
  · have htext : token.listing.toList =
        token.kind.name.toList ++ ' ' :: '(' :: (token.lexeme.toList ++ [')']) := by
      rw [listing_of_mem hkind]
      simp
    rw [htext, List.splitOn_append_cons_self_of_not_mem hname]
    rfl
  · rw [listing_of_not_mem hkind, List.splitOn_eq_singleton hname]
    rfl

/-- The line of a token tells its kind. -/
theorem kind_eq_of_listing {token other : Token} (hsame : token.listing = other.listing) :
    token.kind = other.kind := by
  have hhead := head?_splitOn_listing token
  rw [hsame, head?_splitOn_listing other] at hhead
  exact (TokenKind.name_injective (String.toList_inj.1 (Option.some.inj hhead))).symm

/-- The kinds of which no text is shown have just one, or are the end of input. -/
theorem spelling?_of_not_mem {kind : TokenKind} (hkind : kind ∉ shownKinds) (heof : kind ≠ .eof) :
    ∃ text, kind.spelling? = some text := by
  cases kind <;> first | exact ⟨_, rfl⟩ | exact absurd rfl heof | exact absurd (by decide) hkind

/-- Tokens of a kind of which no text is shown are all the same. -/
theorem eq_of_not_mem {source text : String} {token other : Token}
    (htoken : token ∈ tokenize source) (hother : other ∈ tokenize text)
    (hkind : token.kind ∉ shownKinds) (hkinds : token.kind = other.kind) : token = other := by
  rcases handedOut_of_mem_tokenize htoken with hspelled | rfl <;>
    rcases handedOut_of_mem_tokenize hother with hright | rfl
  · obtain ⟨lexeme, hlexeme⟩ := spelling?_of_not_mem hkind hspelled.kind_ne_eof
    rw [hspelled.eq_mk rfl hlexeme, hright.eq_mk hkinds.symm hlexeme]
  · exact absurd hkinds hspelled.kind_ne_eof
  · exact absurd hkinds.symm hright.kind_ne_eof
  · rfl

/-- The line of a token that is read tells the token. -/
theorem eq_of_listing {source text : String} {token other : Token}
    (htoken : token ∈ tokenize source) (hother : other ∈ tokenize text)
    (hsame : token.listing = other.listing) : token = other := by
  have hkinds := kind_eq_of_listing hsame
  by_cases hkind : token.kind ∈ shownKinds
  · have hshown : other.kind ∈ shownKinds := hkinds ▸ hkind
    rw [listing_of_mem hkind, listing_of_mem hshown, hkinds] at hsame
    have htext := congrArg String.toList hsame
    simp only [String.toList_append, List.append_cancel_left_eq,
      List.append_cancel_right_eq] at htext
    obtain ⟨kind, lexeme⟩ := token
    rw [Token.mk.injEq]
    exact ⟨hkinds, String.toList_inj.1 htext⟩
  · exact eq_of_not_mem htoken hother hkind hkinds

end Token

/-- The lines of a listing tell the tokens. -/
theorem tokenize_eq_of_listing {source text : String}
    (hsame : (tokenize source).map Token.listing = (tokenize text).map Token.listing) :
    tokenize source = tokenize text := by
  refine List.ext_getElem (by simpa using congrArg List.length hsame) fun index hleft hright => ?_
  refine Token.eq_of_listing (List.getElem_mem hleft) (List.getElem_mem hright) ?_
  have hlines := congrArg (fun lines => lines[index]?) hsame
  simpa [hleft, hright] using hlines

/-- The bytes of a text are read as that text. -/
theorem decodeText_toUTF8 (text : String) : decodeText text.toUTF8 = .ok text := by
  have hread : String.fromUTF8? text.toUTF8 = some text := by
    rw [String.fromUTF8?, String.toUTF8, dif_pos text.isValidUTF8]
    rfl
  rw [decodeText, hread]

/-- A call that asks for the tokens of a text gets them, whatever they are: the exit code is zero
and nothing is reported as an error.  Cut at its line breaks the output is one line for each token,
in order, the last of them that of the end of input, and nothing behind the last break.  Where two
texts give the same output they have the same tokens.  It does not matter how the arguments are
understood, as long as they ask for the tokens; `Request.ofArguments_eq_process_iff` says which do.
Nothing else comes on the second stream as long as only warnings are logged, as is the default. -/
theorem tokens_of_listing {ofArguments : List String → Request} {arguments : List String}
    {path : Option String} (hrequest : ofArguments arguments = .process true path) :
    (∀ (read : Option String → Except ReadFailure ByteArray) (source : String),
      read path = .ok source.toUTF8 →
      ∃ output, Reply.ofRequest read (ofArguments arguments) = ⟨0, output, ""⟩ ∧
        output.toList.splitOn '\n' =
          (tokenize source).map (fun token => token.listing.toList) ++ [[]] ∧
        ((tokenize source).map Token.listing).getLast? = some "EOF") ∧
    ∀ (read other : Option String → Except ReadFailure ByteArray) (source text : String),
      read path = .ok source.toUTF8 → other path = .ok text.toUTF8 →
      (Reply.ofRequest read (ofArguments arguments)).stdout =
        (Reply.ofRequest other (ofArguments arguments)).stdout →
      tokenize source = tokenize text := by
  have hreply (read : Option String → Except ReadFailure ByteArray) (source : String)
      (hread : read path = .ok source.toUTF8) :
      Reply.ofRequest read (ofArguments arguments) =
        ⟨0, linesText ((tokenize source).map Token.listing), ""⟩ := by
    have hinput : (read path >>= decodeText) = .ok source := by
      rw [hread]
      exact decodeText_toUTF8 source
    rw [hrequest, Reply.ofRequest, hinput]
    rfl
  have hlines (source : String) :
      ∀ line ∈ (tokenize source).map Token.listing, '\n' ∉ line.toList := by
    intro line hline
    obtain ⟨token, htoken, rfl⟩ := List.mem_map.1 hline
    exact Token.not_mem_listing htoken
  constructor
  · intro read source hread
    refine ⟨_, hreply read source hread, ?_, ?_⟩
    · rw [splitOn_linesText (hlines source), List.map_map]
      rfl
    · rw [tokenize_eq_scanAll, List.map_append, List.getLast?_append]
      rfl
  · intro read other source text hread hother hsame
    rw [hreply read source hread, hreply other text hother] at hsame
    exact tokenize_eq_of_listing (linesText_injective (hlines source) (hlines text) hsame)

/-- A text with an illegal character that is no program either has a line for each of its tokens.
Other blanks between tokens do not show in the output, nor do they change the tokens. -/
theorem tokens_of_listing_illegal :
    let read (source : String) : Option String → Except ReadFailure ByteArray :=
      fun _ => .ok source.toUTF8
    Request.ofArguments ["--tokens"] = .process true none ∧
      (∃ output, Reply.ofRequest (read "let @ 5") (Request.ofArguments ["--tokens"]) =
          ⟨0, output, ""⟩ ∧
        output.toList.splitOn '\n' = ["LET".toList, "ILLEGAL (@)".toList, "INT (5)".toList,
          "EOF".toList, []] ∧
        ((tokenize "let @ 5").map Token.listing).getLast? = some "EOF") ∧
      (Reply.ofRequest (read "let @ 5") (Request.ofArguments ["--tokens"])).stdout =
        (Reply.ofRequest (read "let@\n5 ") (Request.ofArguments ["--tokens"])).stdout ∧
      tokenize "let @ 5" = tokenize "let@\n5 " := by
  intro read
  have hrequest : Request.ofArguments ["--tokens"] = .process true none := by decide +kernel
  have hlines : (tokenize "let @ 5").map (fun token => token.listing.toList) =
      ["LET".toList, "ILLEGAL (@)".toList, "INT (5)".toList, "EOF".toList] := by
    decide +kernel
  have hsame : (Reply.ofRequest (read "let @ 5") (Request.ofArguments ["--tokens"])).stdout =
      (Reply.ofRequest (read "let@\n5 ") (Request.ofArguments ["--tokens"])).stdout := by
    decide +kernel
  obtain ⟨hlisted, htold⟩ := tokens_of_listing hrequest
  obtain ⟨output, hreply, hcut, hlast⟩ := hlisted (read "let @ 5") "let @ 5" rfl
  rw [hlines] at hcut
  exact ⟨hrequest, ⟨output, hreply, hcut, hlast⟩, hsame,
    htold (read "let @ 5") (read "let@\n5 ") _ _ rfl rfl hsame⟩

end ExprLang
