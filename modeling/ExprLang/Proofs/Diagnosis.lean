/-
The errors of a source are true of it.  An error tells of tokens that are there, and it only says
that something is wrong with them where something is.  That no closing brace is said to be missing
more often than braces are opened follows from charging errors to tokens.  That expressions are
nested too deep is only said where the source has a token for each of the open ones, since an
expression inside another one is read behind a token of the outer one.
-/
import ExprLang.Proofs.Charging
import ExprLang.Proofs.Invariant
import ExprLang.Proofs.Numerals

namespace ExprLang

/-- What an error says about the tokens of a source is so. -/
def SyntaxError.Truthful (tokens : List Token) : SyntaxError → Prop
  | unexpectedToken expected found =>
      expected ≠ found ∧
        expected ∈ [.identifier, .assign, .openParen, .closeParen, .openCurly, .closeCurly] ∧
        (expected = .closeCurly → found = .eof) ∧ ∃ token ∈ tokens, token.kind = found
  | noExpression kind => kind ∉ starters ∧ ∃ token ∈ tokens, token.kind = kind
  | badInteger lexeme =>
      ⟨.integer, lexeme⟩ ∈ tokens ∧ maxInteger < positionalValue lexeme.toList
  | nestingTooDeep limit =>
      limit = maxNesting ∧ maxNesting ≤ tokens.countP fun token => token.kind ≠ .eof

/-- What starts no expression is none of the kinds that do. -/
theorem Grammar.not_mem_starters {kind : TokenKind} (hrule : standard.startRule kind = none) :
    kind ∉ starters := by
  cases kind <;> first | decide | contradiction

namespace Parser

variable {σ : Type} [TokenSupply σ]

/-- The parser reads what is left of some tokens with room for so many more open expressions.  A few
aside, no more are open than tokens are used up, and all that was recorded is true. -/
structure Honest (tokens : List Token) (room spare : Nat) (state : Parser σ) : Prop where
  left : ∃ left, state.Reads maxNesting room left ∧ left <:+ tokens ∧
    left.length + state.depth ≤ tokens.length + spare
  errors : ∀ error ∈ state.errors.toList, error.Truthful (tokens ++ [.endOfInput])

namespace Honest

variable {tokens : List Token} {room spare : Nat} {state : Parser σ} {error : SyntaxError}

/-- One more true error. -/
theorem record (hstate : state.Honest tokens room spare)
    (herror : error.Truthful (tokens ++ [.endOfInput])) :
    (state.record error).Honest tokens room spare where
  left := by
    obtain ⟨left, hreads, hleft⟩ := hstate.left
    exact ⟨left, hreads.record error, hleft⟩
  errors := by
    rw [record_errors, List.forall_mem_append, List.forall_mem_singleton]
    exact ⟨hstate.errors, herror⟩

/-- What a parser finds wrong is true of the tokens it reads. -/
theorem truthful_of_finds (hstate : state.Honest tokens room spare) (hfinds : state.Finds error) :
    error.Truthful (tokens ++ [.endOfInput]) := by
  obtain ⟨left, hreads, ⟨front, rfl⟩, -⟩ := hstate.left
  rw [List.append_assoc]
  have hcurrent := List.mem_append_right front hreads.current_mem
  cases hfinds with
  | @missing kind hdue hpeek =>
      have hkind : kind ∈ TokenKind.due ++ [.closeCurly] := List.mem_append_left _ hdue
      refine ⟨Ne.symm hpeek, hkind, ?_, _, List.mem_append_right front hreads.peek_mem, rfl⟩
      rintro rfl
      contradiction
  | unclosed heof => exact ⟨by decide, by decide, fun _ => rfl, _, hcurrent, heof⟩
  | noExpression hrule =>
      rw [hreads.grammar] at hrule
      exact ⟨Grammar.not_mem_starters hrule, _, hcurrent, rfl⟩
  | badInteger hkind hvalue =>
      obtain ⟨rest, rfl⟩ := hreads.exists_cons (by rw [hkind]; decide)
      have hrun := hreads.spelled_cons.isDigitRun hkind
      have hbeyond : maxInteger < decimalValue state.current.lexeme.toList := by
        rw [readInteger?_of_isDigitRun hrun] at hvalue
        exact Nat.not_le.1 fun hle => absurd (if_pos hle ▸ hvalue) (Option.some_ne_none _)
      refine ⟨?_, decimalValue_eq_positionalValue _ ▸ hbeyond⟩
      rw [← hkind]
      exact hcurrent

theorem weaken (hstate : state.Honest tokens room 0) : state.Honest tokens room spare where
  left := by
    obtain ⟨left, hreads, hsuffix, hopen⟩ := hstate.left
    exact ⟨left, hreads, hsuffix, Nat.le_trans hopen (Nat.le_add_right _ _)⟩
  errors := hstate.errors

/-- Moving on leaves no more tokens. -/
theorem advance (hstate : state.Honest tokens room spare) :
    state.advance.Honest tokens room spare where
  left := by
    obtain ⟨left, hreads, hsuffix, hopen⟩ := hstate.left
    have hfewer : left.tail.length + state.depth ≤ left.length + state.depth :=
      Nat.add_le_add_right (List.tail_sublist left).length_le _
    exact ⟨left.tail, hreads.advance_tail, (List.tail_suffix left).trans hsuffix,
      Nat.le_trans hfewer hopen⟩
  errors := hstate.errors

/-- Moving on from a token uses it up. -/
theorem advance_of_current (hstate : state.Honest tokens room (spare + 1))
    (hcurrent : state.current.kind ≠ .eof) : state.advance.Honest tokens room spare where
  left := by
    obtain ⟨left, hreads, hsuffix, hopen⟩ := hstate.left
    obtain ⟨rest, rfl⟩ := hreads.exists_cons hcurrent
    refine ⟨rest, hreads.advance, (List.suffix_cons _ rest).trans hsuffix, ?_⟩
    rw [List.length_cons] at hopen
    show rest.length + state.depth ≤ tokens.length + spare
    omega
  errors := hstate.errors

/-- Only the end of input is behind the end of input. -/
theorem current_kind_ne_eof (hstate : state.Honest tokens room spare)
    (hpeek : state.peek.kind ≠ .eof) : state.current.kind ≠ .eof := by
  obtain ⟨left, hreads, -⟩ := hstate.left
  intro heof
  obtain rfl := hreads.current_kind_eq_eof_iff.1 heof
  exact hpeek (hreads.advance_tail.current_kind_eq_eof_iff.2 rfl)

/-- Where there is no room, as many expressions are open as may be, each with a token of its own. -/
theorem refuse (hstate : state.Honest tokens room 0) (hproper : ∀ token ∈ tokens, token.kind ≠ .eof)
    (hfull : ¬ state.depth < state.limit) :
    (state.record (.nestingTooDeep state.limit)).Honest tokens room 0 := by
  refine hstate.record ?_
  obtain ⟨left, hreads, -, hopen⟩ := hstate.left
  have hlimit := hreads.limit
  refine ⟨hlimit, ?_⟩
  rw [List.countP_append, List.countP_eq_length.2 (by simpa using hproper)]
  omega

theorem enter (hstate : state.Honest tokens (room + 1) spare) :
    state.enter.2.Honest tokens room (spare + 1) where
  left := by
    obtain ⟨left, hreads, hsuffix, hopen⟩ := hstate.left
    refine ⟨left, hreads.enter, hsuffix, ?_⟩
    rw [hreads.enter_depth]
    omega
  errors := by
    obtain ⟨left, hreads, -⟩ := hstate.left
    simp only [Parser.enter, hreads.depth_lt_limit, ↓reduceIte]
    exact hstate.errors

theorem leave {inside : Parser σ} (hstate : state.Honest tokens (room + 1) spare)
    (hinside : state.enter.2.Precedes inside) (hafter : inside.Honest tokens room (spare + 1)) :
    inside.leave.Honest tokens (room + 1) spare where
  left := by
    obtain ⟨left, hreads, -⟩ := hstate.left
    obtain ⟨rest, hrest, hsuffix, hopen⟩ := hafter.left
    refine ⟨rest, hreads.leave hinside hrest, hsuffix, ?_⟩
    have hdepth : inside.depth = state.depth + 1 := hinside.depth.trans hreads.enter_depth
    show rest.length + (inside.depth - 1) ≤ tokens.length + spare
    omega
  errors := hafter.errors

end Honest

end Parser

/-- While a source is read, all that is recorded is true. -/
def Invariant.honest (σ : Type) [TokenSupply σ] {tokens : List Token}
    (hproper : ∀ token ∈ tokens, token.kind ≠ .eof) : Invariant σ where
  ready room state := state.Honest tokens room 0
  during room state := state.Honest tokens room 1
  grammar hstate := by
    obtain ⟨left, hreads, -⟩ := hstate.left
    exact hreads.grammar
  current hstate := hstate.current_kind_ne_eof
  weaken hstate := hstate.weaken
  record_ready hstate hfinds := hstate.record (hstate.truthful_of_finds hfinds)
  record hstate hfinds := hstate.record (hstate.truthful_of_finds hfinds)
  move hstate := hstate.advance_of_current
  pass hstate := hstate.advance.weaken
  resume hstate _ := hstate.advance
  full hstate hopen := by
    obtain ⟨left, hreads, -⟩ := hstate.left
    exact Nat.lt_irrefl _ (hreads.depth_eq_limit ▸ hopen)
  refuse hstate := hstate.refuse hproper
  enter hstate _ := hstate.enter
  leave hstate := hstate.leave

/-- A closing brace is missing no more often than braces are opened. -/
theorem Charges.count_unclosed {tokens : List Token} {errors : List SyntaxError}
    (hcharges : Charges tokens errors) :
    errors.count (.unexpectedToken .closeCurly .eof) ≤
      (tokens.map Token.kind).count .openCurly := by
  rw [List.count, List.count, List.countP_map]
  refine hcharges.countP_le fun token error haccounts hunclosed => ?_
  rw [beq_iff_eq] at hunclosed
  rw [hunclosed] at haccounts
  have hopener : token.kind = .openCurly := by
    cases hkind : token.kind <;> simp [Token.AccountsFor, TokenKind.demands, hkind] at haccounts ⊢
  simpa using hopener

/-- The tip about a missing brace goes with a missing closing brace only. -/
theorem SyntaxError.tip?_eq_unclosed_iff (error : SyntaxError) :
    error.tip? = some "a block is missing its closing `\x7d`" ↔
      error = .unexpectedToken .closeCurly .eof := by
  unfold tip?
  split
  · simp
  · next hother => simpa using hother
  · simp
  all_goals
    simp only [Option.some.injEq, reduceCtorEq, iff_false, ← String.toList_inj,
      String.toList_append]
    simp

/-- At the end of a source all that was recorded is true. -/
theorem truthful_of_mem_parse {source : String} {error : SyntaxError}
    (hmem : error ∈ (parse source).2) : error.Truthful (tokenize source) := by
  have hproper : ∀ token ∈ scanAll source.toList, token.kind ≠ .eof :=
    fun _ htoken => (spelled_of_mem_scanAll htoken).kind_ne_eof
  have hstart : (Parser.ofSupply (Lexer.ofSource source) maxNesting).Honest
      (scanAll source.toList) maxNesting 0 :=
    ⟨⟨_, Parser.reads_ofSource source maxNesting, List.suffix_refl _, Nat.le_refl _⟩,
      fun _ herror => absurd herror List.not_mem_nil⟩
  obtain ⟨after, event, hfinal, -, hafter⟩ :=
    (Invariant.honest Lexer hproper).parseProgram hstart
  rw [parse_errors_eq hfinal] at hmem
  rw [tokenize_eq_scanAll]
  exact hafter.errors error hmem

/-- Every error of a source is true of its tokens.  Where a token is missing another kind was found,
which is that of a token of the source; a closing brace is only missing at the end of input, and no
more often than braces are opened.  Where no expression starts there is a token that starts none,
and a number that cannot be held is in the source and out of range.  Expressions are only nested too
deep where the source has as many tokens as may be open at once. -/
theorem parse_errors_truthful (source : String) :
    (∀ error ∈ (parse source).2, error.Truthful (tokenize source)) ∧
      (parse source).2.count (.unexpectedToken .closeCurly .eof) ≤
        ((tokenize source).map Token.kind).count .openCurly ∧
      ∀ error : SyntaxError, error.tip? = some "a block is missing its closing `\x7d`" ↔
        error = .unexpectedToken .closeCurly .eof :=
  ⟨fun _ => truthful_of_mem_parse, (parse_charges source).count_unclosed,
    SyntaxError.tip?_eq_unclosed_iff⟩

/-- Of two blocks one goes up to the end of input, and the number in it is the first out of
range. -/
theorem parse_errors_truthful_unclosed :
    (parse "fn() \x7b fn() \x7b 9223372036854775808 \x7d").2 =
        [.badInteger "9223372036854775808", .unexpectedToken .closeCurly .eof] ∧
      ⟨.integer, "9223372036854775808"⟩ ∈
        tokenize "fn() \x7b fn() \x7b 9223372036854775808 \x7d" ∧
      maxInteger < positionalValue "9223372036854775808".toList ∧
      1 ≤ ((tokenize "fn() \x7b fn() \x7b 9223372036854775808 \x7d").map Token.kind).count
        .openCurly := by
  have herrors : (parse "fn() \x7b fn() \x7b 9223372036854775808 \x7d").2 =
      [.badInteger "9223372036854775808", .unexpectedToken .closeCurly .eof] := by
    decide +kernel
  obtain ⟨htrue, hcount, -⟩ :=
    parse_errors_truthful "fn() \x7b fn() \x7b 9223372036854775808 \x7d"
  rw [herrors] at htrue hcount
  obtain ⟨hnumber, hbeyond⟩ := htrue _ List.mem_cons_self
  exact ⟨herrors, hnumber, hbeyond, hcount⟩

end ExprLang
