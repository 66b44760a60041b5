/-
Numbers are exact up to the greatest integer of 64 bits.  A run of digits of any length is held if
the number it stands for is in range, leading zeros or not, and is an error otherwise.  The rule for
numbers can be applied to any token: it accepts the same texts there, since no token is a sign with
digits behind it, and where it fails it does no more than record the text.
-/
import ExprLang.Proofs.Precedence
import ExprLang.Proofs.Progress
import ExprLang.Proofs.Reading
import Mathlib.Data.List.Induction
import Mathlib.Data.Nat.Digits.Defs

namespace ExprLang

open ParseM

/-- The number that a row of decimal digits stands for.  The last digit counts once, the one in
front of it ten times, and so on. -/
def positionalValue (digits : List Char) : Nat :=
  Nat.ofDigits 10 (digits.reverse.map fun c => c.toNat - '0'.toNat)

/-- Digits read one after the other give the number they stand for. -/
theorem decimalValue_eq_positionalValue (digits : List Char) :
    decimalValue digits = positionalValue digits := by
  induction digits using List.reverseRecOn with
  | nil => rfl
  | append_singleton digits c ih =>
      have hlast : decimalValue (digits ++ [c]) =
          10 * decimalValue digits + (c.toNat - '0'.toNat) := by
        simp [decimalValue]
      rw [hlast, ih, positionalValue, positionalValue, List.reverse_concat, List.map_cons,
        Nat.ofDigits_cons, Nat.add_comm]

/-- No token has digits behind a sign. -/
theorem Token.Spelled.eq_nil_of_sign {token : Token} {sign : Char} {kind : TokenKind}
    {digits : List Char} (hspelled : token.Spelled) (hmark : mark? sign = some kind)
    (htext : token.lexeme.toList = sign :: digits) : digits = [] := by
  have halone := hspelled.scanAll_lexeme
  rw [htext, scanAll_mark_cons hmark] at halone
  obtain ⟨rfl, -⟩ := List.cons.inj halone
  simpa using htext.symm

/-- The text of a token is held as an integer exactly if it is a run of digits in range. -/
theorem readInteger?_of_handedOut {token : Token} (htoken : token.HandedOut) :
    readInteger? token.lexeme =
      if isDigitRun token.lexeme.toList = true ∧ decimalValue token.lexeme.toList ≤ maxInteger then
        some (Int64.ofNat (decimalValue token.lexeme.toList))
      else none := by
  by_cases hrun : isDigitRun token.lexeme.toList = true
  · rw [readInteger?_of_isDigitRun hrun]
    simp only [hrun, true_and]
  · have hsign (sign : Char) {kind : TokenKind} {digits : List Char}
        (hmark : mark? sign = some kind) (htext : token.lexeme.toList = sign :: digits) :
        isDigitRun digits = false := by
      rcases htoken with hspelled | rfl
      · rw [hspelled.eq_nil_of_sign hmark htext]
        rfl
      · contradiction
    rw [if_neg fun hheld => hrun hheld.1, readInteger?]
    split
    · next digits htext => simp [hsign '-' rfl htext]
    · next digits htext => simp [hsign '+' rfl htext]
    · simp [hrun]

/-- Operations over a lexer make a token current only if it was handed out. -/
theorem Parser.Reachable.handedOut_current {state : Parser Lexer} (hreachable : state.Reachable) :
    state.current.HandedOut := by
  suffices hleft : ∃ tokens, state.HasLeft tokens ∧ ∀ token ∈ tokens, token.Spelled by
    obtain ⟨tokens, hleft, hspelled⟩ := hleft
    cases tokens with
    | nil => exact Or.inr hleft.faces.current
    | cons token rest =>
        rw [hleft.faces.current_cons]
        exact Or.inl (hspelled token List.mem_cons_self)
  induction hreachable with
  | new lexer => exact ⟨_, hasLeft_ofLexer lexer maxNesting, fun _ => spelled_of_mem_scanAll⟩
  | @run operation state _ ih =>
      obtain ⟨tokens, hleft, hspelled⟩ := ih
      obtain ⟨count, hplace⟩ := operation.run_moves state
      exact ⟨_, (hleft.advanceBy count).congr hplace,
        fun token htoken => hspelled token (List.mem_of_mem_drop htoken)⟩

namespace Rule

variable {σ : Type} [TokenSupply σ] {state : Parser σ} {token : Token} {limit room : Nat}

omit [TokenSupply σ] in
/-- The current token as a number, or an error that tells its text. -/
theorem integer_apply (state : Parser σ) :
    integer state =
      match readInteger? state.current.lexeme with
      | some value => (some (.integer state.current value), state)
      | none => (none, state.record (.badInteger state.current.lexeme)) := by
  rw [integer, bind_apply, inspect_apply]
  dsimp only
  cases readInteger? state.current.lexeme <;> rfl

/-- Nothing goes on behind a number that is the last token. -/
theorem body_integer (hreads : state.Reads limit room [token]) (hkind : token.kind = .integer)
    (power : Power) : body expression power state = integer state := by
  have hstart : start expression state = integer state := by
    rw [start, bind_apply, inspect_apply]
    dsimp only
    rw [bind_apply, inspect_apply]
    dsimp only
    rw [hreads.grammar, hreads.current_cons, hkind]
    rfl
  have hpeek : state.peek.kind = .eof := congrArg Token.kind hreads.peek_eq
  have hstop : continues power state = false := by
    rw [← Bool.not_eq_true, continues_iff hreads.grammar, hpeek]
    exact Nat.not_lt.2 (Power.lowest_le power)
  rw [body, bind_apply, hstart, integer_apply]
  cases readInteger? state.current.lexeme with
  | some value => exact improveWhile_of_not hstop
  | none => rfl

/-- A number that is the last token is a statement, with the parser where it was, or else an
error. -/
theorem statement_integer (hreads : state.Reads limit (room + 1) [token])
    (hkind : token.kind = .integer) :
    statement expression state =
      match readInteger? token.lexeme with
      | some value => (some (.expression token (.integer token value)), state.opened.leave)
      | none => (none, (state.opened.record (.badInteger token.lexeme)).leave) := by
  have hopen := hreads.depth_lt_limit
  have hbody : body expression .lowest state.opened = integer state.opened := by
    have hinside := hreads.enter
    simp only [Parser.enter, hopen, ↓reduceIte] at hinside
    exact body_integer hinside hkind .lowest
  have hvalue : expression .lowest state =
      match readInteger? token.lexeme with
      | some value => (some (.integer token value), state.opened.leave)
      | none => (none, (state.opened.record (.badInteger token.lexeme)).leave) := by
    have hcurrent : state.opened.current = token := hreads.current_cons
    rw [expression_eq_nested, nested_eq_opened _ hopen, opened_apply, hbody, integer_apply,
      hcurrent]
    cases readInteger? token.lexeme <;> rfl
  have hpeek : state.peek.kind = .eof := congrArg Token.kind hreads.peek_eq
  rw [statement, bind_apply, inspect_apply, hreads.grammar, hreads.current_cons, hkind]
  simp only [Grammar.standard, Option.getD_none, statementBy, expressionStatement, bind_apply,
    inspect_apply, attempt_apply, hvalue, skipSemicolon]
  cases readInteger? token.lexeme <;>
    simp [Parser.peekIs, Parser.leave, Parser.opened, Parser.record, hpeek, hreads.current_cons]

/-- A statement with the end of input behind it is the only one that is read. -/
theorem statements_of_peek {result : Option Stmt} {behind : Parser σ}
    (hcurrent : state.current.kind ≠ .eof)
    (hstatement : statement expression state = (result, behind)) (hlast : behind.peek.kind = .eof) :
    statements expression state = (result.toList, behind.advance) := by
  have hnears : state.Nears behind := by
    have hkept := Keeps.after Parser.Nears (statement expression) state
    rwa [hstatement] at hkept
  have hstop : (!behind.advance.currentIs .eof) = false := by
    simp [Parser.currentIs, hlast]
  rw [statements, Repetition.answersWhile_guarded,
    answersWhile_of_lt (by simp [Parser.currentIs, hcurrent]) hstatement
      (hnears.ahead_advance_lt hcurrent),
    answersWhile_of_not hstop, List.append_nil]

end Rule

/-- A source that is one number is a program of one statement, or no program and one error. -/
theorem parse_integer {source : String} (hrun : isDigitRun source.toList = true) :
    parse source =
      match readInteger? source with
      | some value =>
          (⟨[.expression ⟨.integer, source⟩ (.integer ⟨.integer, source⟩ value)]⟩, [])
      | none => (⟨[]⟩, [.badInteger source]) := by
  have hreads := Parser.reads_ofSource source maxNesting
  have htokens : scanAll source.toList = [⟨.integer, source⟩] := by
    rw [← List.append_nil source.toList, scanAll_digits_append hrun (by simp), scanAll_nil,
      String.ofList_toList]
  rw [htokens] at hreads
  have hpeek : (Parser.ofSupply (Lexer.ofSource source) maxNesting).peek.kind = .eof :=
    congrArg Token.kind hreads.peek_eq
  have hstatement := Rule.statement_integer hreads rfl
  rw [parse, parseSupply, parseProgram]
  cases hvalue : readInteger? source with
  | some value =>
      rw [hvalue] at hstatement
      rw [Rule.statements_of_peek hreads.kind_ne_eof hstatement hpeek]
      rfl
  | none =>
      rw [hvalue] at hstatement
      rw [Rule.statements_of_peek hreads.kind_ne_eof hstatement hpeek]
      rfl

/-- Numbers are exact up to the greatest integer of 64 bits.  A source that is a run of digits, of
any length and with any leading zeros, is one statement that holds the number the digits stand for,
with no error, if that number is in range.  Beyond the range the program is empty and the one error
tells the digits.  Whatever the current token of a parser that operations lead to, the rule for
numbers answers exactly if its text is such a run in range, and else only records one error that
tells the text. -/
theorem integers_exact :
    (∀ digits : String, isDigitRun digits.toList = true →
      (positionalValue digits.toList ≤ maxInteger →
        ∃ value : Int64, value.toInt = positionalValue digits.toList ∧
          parse digits =
            (⟨[.expression ⟨.integer, digits⟩ (.integer ⟨.integer, digits⟩ value)]⟩, [])) ∧
      (maxInteger < positionalValue digits.toList → parse digits = (⟨[]⟩, [.badInteger digits]))) ∧
    ∀ state : Parser Lexer, state.Reachable →
      (isDigitRun state.current.lexeme.toList = true ∧
          positionalValue state.current.lexeme.toList ≤ maxInteger →
        ∃ value : Int64, value.toInt = positionalValue state.current.lexeme.toList ∧
          (Operation.start .integer).run state =
            (.expression (some (.integer state.current value)), state)) ∧
      (¬ (isDigitRun state.current.lexeme.toList = true ∧
          positionalValue state.current.lexeme.toList ≤ maxInteger) →
        ∃ after : Parser Lexer,
          (Operation.start .integer).run state = (.expression none, after) ∧
          after.errors.toList = state.errors.toList ++ [.badInteger state.current.lexeme] ∧
          after.current = state.current ∧ after.peek = state.peek ∧
          after.supply = state.supply ∧ after.depth = state.depth) := by
  constructor
  · intro digits hrun
    rw [parse_integer hrun, readInteger?_of_isDigitRun hrun, ← decimalValue_eq_positionalValue]
    constructor
    · intro hle
      rw [if_pos hle]
      exact ⟨_, toInt_ofNat_decimalValue hle, rfl⟩
    · intro hlt
      rw [if_neg (Nat.not_le.2 hlt)]
  · intro state hreachable
    have hread := readInteger?_of_handedOut hreachable.handedOut_current
    rw [Operation.run, Rule.startBy, Operation.readExpression, Rule.integer_apply, hread,
      ← decimalValue_eq_positionalValue]
    constructor
    · intro hheld
      rw [if_pos hheld]
      exact ⟨_, toInt_ofNat_decimalValue hheld.2, rfl⟩
    · intro hheld
      rw [if_neg hheld]
      exact ⟨_, rfl, Parser.record_errors _ state, rfl, rfl, rfl, rfl⟩

/-- Leading zeros, the first number out of range, and the rule for numbers in front of a number and
in front of a sign. -/
theorem integers_exact_leadingZeros :
    (∃ value : Int64, value.toInt = 42 ∧
      parse "00042" =
        (⟨[.expression ⟨.integer, "00042"⟩ (.integer ⟨.integer, "00042"⟩ value)]⟩, [])) ∧
      parse "9223372036854775808" = (⟨[]⟩, [.badInteger "9223372036854775808"]) ∧
      (∃ value : Int64, value.toInt = 7 ∧
        ((Operation.start .integer).run (Parser.ofSupply (Lexer.ofSource "7") maxNesting)).1 =
          .expression (some (.integer ⟨.integer, "7"⟩ value))) ∧
      ∃ after : Parser Lexer,
        (Operation.start .integer).run (Parser.ofSupply (Lexer.ofSource "-7") maxNesting) =
          (.expression none, after) ∧
        after.errors.toList = [.badInteger "-"] ∧ after.current = ⟨.minus, "-"⟩ := by
  obtain ⟨hsources, hstates⟩ := integers_exact
  have hseven : (Parser.ofSupply (Lexer.ofSource "7") maxNesting).current = ⟨.integer, "7"⟩ := by
    decide +kernel
  have hminus : (Parser.ofSupply (Lexer.ofSource "-7") maxNesting).current = ⟨.minus, "-"⟩ := by
    decide +kernel
  obtain ⟨zeros, hzeros, hparsed⟩ := (hsources "00042" (by decide)).1 (by decide +kernel)
  have hbeyond := (hsources "9223372036854775808" (by decide +kernel)).2 (by decide +kernel)
  obtain ⟨seven, hvalue, hrun⟩ :=
    (hstates _ (.new (Lexer.ofSource "7"))).1 (by rw [hseven]; decide +kernel)
  obtain ⟨after, hfailed, herrors, hcurrent, -⟩ :=
    (hstates _ (.new (Lexer.ofSource "-7"))).2 (by rw [hminus]; decide +kernel)
  rw [hseven] at hvalue hrun
  rw [hminus] at herrors hcurrent
  exact ⟨⟨zeros, hzeros, hparsed⟩, hbeyond, ⟨seven, hvalue, congrArg Prod.fst hrun⟩,
    after, hfailed, herrors, hcurrent⟩

end ExprLang
