/-
What is read without an error is a phrase of the language.  Each rule is taken with an `inner` that
reads expressions soundly, and what it reads is derived by the syntax from exactly the tokens that
it uses up, no deeper than the room for open expressions; the room then carries the induction that
ties the knot.
-/
import ExprLang.Proofs.FirstFault
import ExprLang.Proofs.Precedence
import ExprLang.Proofs.Reading

namespace ExprLang

open ParseM

variable {σ : Type} [TokenSupply σ]

/-- A parser is past a phrase of the given tokens: the phrase is derived, no deeper than a bound,
from all of them but the rest, its last token is current, and the rest comes next. -/
def Parser.Past (state : Parser σ) (phrase : Phrase) (bound limit room : Nat)
    (tokens : List Token) :
    Prop :=
  ∃ used rest depth, tokens = used ++ rest ∧ Derives phrase used depth ∧ depth ≤ bound ∧
    state.current.kind ≠ .eof ∧ state.advance.Reads limit room rest

/-- Expressions of any power are read soundly: without an error, the parser is past the expression
and the lookahead does not go on with it. -/
def Sound (limit room : Nat) (inner : Power → ParseM σ Expr) : Prop :=
  ∀ {power state tokens}, state.Reads limit room tokens →
    Leads (inner power) state (fun _ => True) fun tree after =>
      after.Past (.expression power.stratum tree) room limit room tokens ∧
        Rule.continues power after = false

/-- An expression has been read so far at a power.  It is in a stratum that is read at the power,
and the lookahead binds no more tightly than the operators of that stratum. -/
def Parser.Grown (state : Parser σ) (power : Power) (tree : Expr) (limit room : Nat)
    (tokens : List Token) : Prop :=
  ∃ stratum : Stratum, power.stratum.rank ≤ stratum.rank ∧
    Grammar.standard.power state.peek.kind ≤ stratum.power ∧
    state.Past (.expression stratum tree) (room + 1) limit room tokens

/-- What may stand behind a statement: a semicolon that belongs to it, or nothing where the tokens
that come next do not go on with an expression. -/
inductive Closes : List Token → List Token → Prop
  | semicolon {mark : Token} {rest : List Token} : mark.kind = .semicolon → Closes [mark] rest
  | nothing {rest : List Token} : StartsWithout continuations rest → Closes [] rest

/-- A parser is past a statement of the given tokens and past what closes it. -/
def Parser.PastStatement (state : Parser σ) (tree : Stmt) (limit room : Nat) (tokens : List Token) :
    Prop :=
  ∃ used closing rest depth, tokens = used ++ (closing ++ rest) ∧
    Derives (.statement tree) used depth ∧ depth ≤ room ∧ Closes closing rest ∧
    state.current.kind ≠ .eof ∧ state.advance.Reads limit room rest

theorem Parser.Past.current_kind_ne_eof {state : Parser σ} {phrase : Phrase}
    {bound limit room : Nat}
    {tokens : List Token} (hpast : state.Past phrase bound limit room tokens) :
    state.current.kind ≠ .eof := by
  obtain ⟨used, rest, depth, -, -, -, hkind, -⟩ := hpast
  exact hkind

theorem Parser.PastStatement.current_kind_ne_eof {state : Parser σ} {tree : Stmt}
    {limit room : Nat} {tokens : List Token} (hpast : state.PastStatement tree limit room tokens) :
    state.current.kind ≠ .eof := by
  obtain ⟨used, closing, rest, depth, -, -, -, -, hkind, -⟩ := hpast
  exact hkind

theorem Parser.Past.grammar {state : Parser σ} {phrase : Phrase} {bound limit room : Nat}
    {tokens : List Token} (hpast : state.Past phrase bound limit room tokens) :
    state.grammar = .standard := by
  obtain ⟨used, rest, depth, -, -, -, -, hbehind⟩ := hpast
  exact hbehind.grammar

namespace Sound

variable {limit room : Nat} {inner : Power → ParseM σ Expr} {state : Parser σ} {token : Token}
  {tokens : List Token}

theorem ident (hreads : state.Reads limit room (token :: tokens))
    (hkind : token.kind = .identifier) :
    Leads Rule.ident state (fun _ => True) fun tree after =>
      after.Past (.expression .primary tree) (room + 1) limit room (token :: tokens) := by
  rw [Rule.ident]
  apply Leads.inspect_bind
  apply Leads.pure
  have htree : Derives (.expression .primary (.ident state.currentIdent)) [token] 1 := by
    rw [Parser.currentIdent, hreads.current_cons]
    exact .ident hkind
  exact ⟨[token], tokens, 1, rfl, htree, by omega, hreads.kind_ne_eof, hreads.advance⟩

theorem integer (hreads : state.Reads limit room (token :: tokens))
    (hkind : token.kind = .integer) :
    Leads Rule.integer state (fun _ => True) fun tree after =>
      after.Past (.expression .primary tree) (room + 1) limit room (token :: tokens) := by
  have hrun := hreads.spelled_cons.isDigitRun hkind
  rw [Rule.integer]
  apply Leads.inspect_bind
  rw [hreads.current_cons, readInteger?_of_isDigitRun hrun]
  by_cases hrange : decimalValue token.lexeme.toList ≤ maxInteger
  · rw [if_pos hrange]
    apply Leads.pure
    exact ⟨[token], tokens, 1, rfl, .integer hkind hrun hrange, by omega, hreads.kind_ne_eof,
      hreads.advance⟩
  · rw [if_neg hrange]
    exact Leads.fail trivial

theorem boolean (hreads : state.Reads limit room (token :: tokens))
    (hkind : token.kind = .kwTrue ∨ token.kind = .kwFalse) :
    Leads Rule.boolean state (fun _ => True) fun tree after =>
      after.Past (.expression .primary tree) (room + 1) limit room (token :: tokens) := by
  rw [Rule.boolean]
  apply Leads.inspect_bind
  rw [hreads.current_cons]
  apply Leads.pure
  exact ⟨[token], tokens, 1, rfl, .boolean hkind, by omega, hreads.kind_ne_eof, hreads.advance⟩

variable [∀ power, Keeps Parser.Precedes (inner power)]

theorem unary (hinner : Sound limit room inner) (hreads : state.Reads limit room (token :: tokens))
    (hkind : token.kind = .minus ∨ token.kind = .bang) :
    Leads (Rule.unary inner) state (fun _ => True) fun tree after =>
      after.Past (.expression .unary tree) (room + 1) limit room (token :: tokens) ∧
        Rule.continues .unary after = false := by
  rw [Rule.unary]
  apply Leads.inspect_bind
  apply Leads.advance_bind
  refine Leads.bind (hinner hreads.advance) ?_
  rintro operand after - - ⟨⟨used, rest, depth, rfl, hoperand, hdepth, hlast, hbehind⟩, hstop⟩
  rw [hreads.current_cons]
  apply Leads.pure
  exact ⟨⟨token :: used, rest, 1 + depth, rfl, .unary hkind hoperand, by omega, hlast, hbehind⟩,
    hstop⟩

theorem grouped (hinner : Sound limit room inner)
    (hreads : state.Reads limit room (token :: tokens))
    (hkind : token.kind = .openParen) :
    Leads (Rule.grouped inner) state (fun _ => True) fun tree after =>
      after.Past (.expression .primary tree) (room + 1) limit room (token :: tokens) := by
  rw [Rule.grouped]
  apply Leads.advance_bind
  refine Leads.attempt_bind (hinner hreads.advance) ?_
  rintro tree after - - ⟨⟨used, rest, depth, rfl, htree, hdepth, hlast, hbehind⟩, -⟩
  refine Leads.expect_bind (fun hclosing => ?_) fun _ => trivial
  obtain ⟨rest, rfl⟩ := hbehind.exists_cons (by rw [Parser.advance_current, hclosing]; decide)
  apply Leads.answer
  exact ⟨token :: (used ++ [after.peek]), rest, 1 + depth, by simp, .grouped hkind htree hclosing,
    by omega, hbehind.kind_ne_eof, hbehind.advance⟩

theorem skipSemicolon {tree : Stmt} (hpast : state.Past (.statement tree) room limit room tokens)
    (hstop : Rule.continues .lowest state = false) :
    Leads Rule.skipSemicolon state (fun _ => True) fun _ after =>
      after.PastStatement tree limit room tokens := by
  obtain ⟨used, rest, depth, rfl, htree, hdepth, hlast, hbehind⟩ := hpast
  refine Or.inl ⟨(), _, rfl, ?_, ?_⟩
  · split <;> rfl
  · by_cases hpeek : state.peekIs .semicolon = true
    · rw [if_pos hpeek]
      rw [Parser.peekIs_iff] at hpeek
      obtain ⟨rest, rfl⟩ := hbehind.exists_peek hpeek (by decide)
      exact ⟨used, [state.peek], rest, depth, rfl, htree, hdepth, .semicolon hpeek,
        hbehind.kind_ne_eof, hbehind.advance⟩
    · rw [if_neg hpeek]
      have hgrammar : state.grammar = .standard := hbehind.grammar
      have hweak := Rule.power_peek_le hgrammar hstop
      have hfree : StartsWithout continuations rest := by
        intro token htoken
        obtain ⟨later, rfl⟩ := List.head?_eq_some_iff.1 htoken
        rw [← Grammar.standard_lowest_lt_power_iff, ← hbehind.current_cons]
        exact Nat.not_lt.2 hweak
      exact ⟨used, [], rest, depth, rfl, htree, hdepth, .nothing hfree, hlast, hbehind⟩

theorem binding (hinner : Sound limit room inner)
    (hreads : state.Reads limit room (token :: tokens))
    (hkind : token.kind = .kwLet) :
    Leads (Rule.binding inner) state (fun _ => True) fun tree after =>
      after.PastStatement tree limit room (token :: tokens) := by
  rw [Rule.binding]
  apply Leads.inspect_bind
  refine Leads.expect_bind (fun hname => ?_) fun _ => trivial
  obtain ⟨tokens, rfl⟩ := hreads.advance.exists_peek hname (by decide)
  apply Leads.inspect_bind
  refine Leads.expect_bind (fun hsign => ?_) fun _ => trivial
  obtain ⟨tokens, rfl⟩ := hreads.advance.advance.exists_peek hsign (by decide)
  apply Leads.advance_bind
  refine Leads.attempt_bind (hinner hreads.advance.advance.advance) ?_
  rintro tree after - - ⟨⟨used, rest, depth, rfl, htree, hdepth, hlast, hbehind⟩, hstop⟩
  rw [hreads.current_cons]
  have hpast : after.Past (.statement (.binding token ⟨state.peek, state.peek.lexeme⟩ (some tree)))
      room limit room (token :: state.peek :: state.advance.peek :: (used ++ rest)) :=
    ⟨token :: state.peek :: state.advance.peek :: used, rest, depth, rfl,
      .binding hkind hname hsign htree, hdepth, hlast, hbehind⟩
  refine Leads.bind (skipSemicolon hpast hstop) ?_
  rintro ⟨⟩ final - - hfinal
  exact Leads.pure hfinal

theorem returning (hinner : Sound limit room inner)
    (hreads : state.Reads limit room (token :: tokens))
    (hkind : token.kind = .kwReturn) :
    Leads (Rule.returning inner) state (fun _ => True) fun tree after =>
      after.PastStatement tree limit room (token :: tokens) := by
  rw [Rule.returning]
  apply Leads.inspect_bind
  apply Leads.advance_bind
  refine Leads.attempt_bind (hinner hreads.advance) ?_
  rintro tree after - - ⟨⟨used, rest, depth, rfl, htree, hdepth, hlast, hbehind⟩, hstop⟩
  rw [hreads.current_cons]
  have hpast : after.Past (.statement (.returning token (some tree))) room limit room
      (token :: (used ++ rest)) :=
    ⟨token :: used, rest, depth, rfl, .returning hkind htree, hdepth, hlast, hbehind⟩
  refine Leads.bind (skipSemicolon hpast hstop) ?_
  rintro ⟨⟩ final - - hfinal
  exact Leads.pure hfinal

theorem expressionStatement (hinner : Sound limit room inner)
    (hreads : state.Reads limit room (token :: tokens)) :
    Leads (Rule.expressionStatement inner) state (fun _ => True) fun tree after =>
      after.PastStatement tree limit room (token :: tokens) := by
  rw [Rule.expressionStatement]
  apply Leads.inspect_bind
  refine Leads.attempt_bind (hinner hreads) ?_
  rintro tree after - - ⟨⟨used, rest, depth, htokens, htree, hdepth, hlast, hbehind⟩, hstop⟩
  -- The token of the statement is the first one that its expression uses up.
  obtain ⟨first, later, rfl, -⟩ := htree.exists_starter
  obtain ⟨rfl, rfl⟩ := List.cons.inj htokens
  rw [hreads.current_cons]
  have hpast : after.Past (.statement (.expression token tree)) room limit room
      (token :: (later ++ rest)) :=
    ⟨token :: later, rest, depth, rfl, .expression htree, hdepth, hlast, hbehind⟩
  refine Leads.bind (skipSemicolon hpast hstop) ?_
  rintro ⟨⟩ final - - hfinal
  apply Leads.answer_bind
  exact Leads.pure hfinal

theorem statement (hinner : Sound limit room inner)
    (hreads : state.Reads limit room (token :: tokens)) :
    Leads (Rule.statement inner) state (fun _ => True) fun tree after =>
      after.PastStatement tree limit room (token :: tokens) := by
  have hkind := Grammar.standard_statementRule_cases token.kind
  rw [Rule.statement]
  apply Leads.inspect_bind
  rw [hreads.grammar, hreads.current_cons]
  cases hrule : (Grammar.standard.statementRule token.kind).getD .expression with
  | binding =>
      rw [hrule] at hkind
      exact binding hinner hreads hkind
  | returning =>
      rw [hrule] at hkind
      exact returning hinner hreads hkind
  | expression => exact expressionStatement hinner hreads

/-- A repetition of statements that stops at the end of input at the latest reads statements in a
row. -/
theorem statements (hinner : Sound limit room inner) {more : Parser σ → Bool}
    (hmore : ∀ state, more state = true → state.current.kind ≠ .eof)
    (hreads : state.Reads limit room tokens) :
    Leads (always (answersWhile more (Rule.statement inner))) state (fun _ => True)
      fun trees after => more after = false ∧ ∃ used rest depth, tokens = used ++ rest ∧
        Derives (.statements trees) used depth ∧ depth ≤ room ∧ after.Reads limit room rest := by
  -- Each round leaves fewer tokens ahead than there were.
  induction hfew : state.ahead using Nat.strongRecOn generalizing state tokens with
  | _ few ih =>
      cases hcase : more state with
      | false =>
          apply Leads.answersWhile_done hcase
          exact ⟨hcase, [], tokens, 0, rfl, .noStatements, Nat.zero_le _, hreads⟩
      | true =>
          obtain ⟨later, rfl⟩ := hreads.exists_cons (hmore state hcase)
          have hfirst := (statement hinner hreads).imp fun tree after hpast =>
            And.intro hpast.current_kind_ne_eof hpast
          refine Leads.answersWhile_step hcase hfirst ?_
          rintro tree after hlater - ⟨used, closing, rest, depth, htokens, htree, hdepth, hcloses,
            hlast, hbehind⟩
          have hless : after.advance.ahead < few := hfew ▸ hlater.ahead_advance_lt hlast
          refine (ih _ hless hbehind rfl).imp ?_
          rintro trees final ⟨hstop, others, rest, height, rfl, htrees, hheight, hfinal⟩
          rw [htokens]
          have hbound : max depth height ≤ room := Nat.max_le.2 ⟨hdepth, hheight⟩
          cases hcloses with
          | semicolon hmark =>
              exact ⟨hstop, _, rest, _, by simp, .terminated htree hmark htrees, hbound, hfinal⟩
          | nothing hfree =>
              exact ⟨hstop, _, rest, _, by simp, .unterminated htree hfree.of_append htrees, hbound,
                hfinal⟩

theorem block (hinner : Sound limit room inner) (hreads : state.Reads limit room (token :: tokens))
    (hkind : token.kind = .openCurly) :
    Leads (always (Rule.block inner)) state (fun _ => True) fun tree after =>
      after.Past (.block tree) room limit room (token :: tokens) := by
  apply Leads.block
  refine (statements hinner ?_ hreads.advance).imp ?_
  · intro state hmore
    simpa [Parser.currentIs] using (Bool.and_eq_true_iff.1 hmore).2
  · rintro trees after ⟨hstop, used, rest, depth, rfl, htrees, hdepth, hbehind⟩
    split
    · trivial
    · next hkind' =>
        have hclosing : after.current.kind = .closeCurly := by
          simpa [Parser.currentIs, hkind'] using hstop
        obtain ⟨rest, rfl⟩ := hbehind.exists_cons hkind'
        rw [hreads.current_cons]
        exact ⟨_, rest, depth, by simp, .block hkind htrees hclosing, hdepth, hkind',
          hbehind.advance⟩

theorem alternative (hinner : Sound limit room inner)
    (hreads : state.advance.Reads limit room tokens)
    (hlast : state.current.kind ≠ .eof) :
    Leads (Rule.alternative inner) state (fun _ => True) fun tree after =>
      after.Past (.alternative tree) room limit room tokens := by
  rw [Rule.alternative]
  apply Leads.inspect_bind
  by_cases hpeek : state.peekIs .kwElse = true
  · rw [if_pos hpeek]
    rw [Parser.peekIs_iff] at hpeek
    obtain ⟨tokens, rfl⟩ := hreads.exists_peek hpeek (by decide)
    apply Leads.advance_bind
    refine Leads.expect_bind (fun hopening => ?_) fun _ => trivial
    obtain ⟨tokens, rfl⟩ := hreads.advance.exists_peek hopening (by decide)
    refine Leads.bind (block hinner hreads.advance hopening) ?_
    rintro arm after - - ⟨used, rest, depth, htokens, harm, hdepth, hlast, hbehind⟩
    apply Leads.pure
    exact ⟨state.peek :: used, rest, depth, by rw [htokens]; rfl, .alternative hpeek harm, hdepth,
      hlast, hbehind⟩
  · rw [if_neg hpeek]
    apply Leads.pure
    exact ⟨[], tokens, 0, rfl, .noAlternative, Nat.zero_le _, hlast, hreads⟩

theorem conditional (hinner : Sound limit room inner)
    (hreads : state.Reads limit room (token :: tokens))
    (hkind : token.kind = .kwIf) :
    Leads (Rule.conditional inner) state (fun _ => True) fun tree after =>
      after.Past (.expression .primary tree) (room + 1) limit room (token :: tokens) := by
  rw [Rule.conditional]
  apply Leads.inspect_bind
  refine Leads.expect_bind (fun hopening => ?_) fun _ => trivial
  obtain ⟨tokens, rfl⟩ := hreads.advance.exists_peek hopening (by decide)
  apply Leads.advance_bind
  refine Leads.attempt_bind (hinner hreads.advance.advance) ?_
  rintro condition first - - ⟨⟨used, rest, d₁, rfl, hcondition, hd₁, -, hbehind⟩, -⟩
  refine Leads.expect_bind (fun hclosing => ?_) fun _ => trivial
  obtain ⟨rest, rfl⟩ := hbehind.exists_peek hclosing (by decide)
  refine Leads.expect_bind (fun hcurly => ?_) fun _ => trivial
  obtain ⟨rest, rfl⟩ := hbehind.advance.exists_peek hcurly (by decide)
  refine Leads.bind (block hinner hbehind.advance hcurly) ?_
  rintro consequent second - - ⟨inside, rest', d₂, hinside, hconsequent, hd₂, hlast, hbehind⟩
  refine Leads.bind (alternative hinner hbehind hlast) ?_
  rintro other third - - ⟨arm, rest'', d₃, rfl, hother, hd₃, hlast, hbehind⟩
  apply Leads.answer_bind
  rw [hreads.current_cons]
  apply Leads.pure
  refine ⟨_, rest'', _, ?_, .conditional hkind hopening hcondition hclosing hconsequent hother,
    by omega, hlast, hbehind⟩
  rw [hinside]
  simp

theorem nextIdent (hreads : state.advance.Reads limit room tokens) :
    Leads Rule.nextIdent state (fun _ => True) fun id after =>
      ∃ name rest, tokens = name :: rest ∧ name.kind = .identifier ∧ id = ⟨name, name.lexeme⟩ ∧
        after.current.kind ≠ .eof ∧ after.advance.Reads limit room rest := by
  rw [Rule.nextIdent]
  refine Leads.expect_bind (fun hname => ?_) fun _ => trivial
  obtain ⟨rest, rfl⟩ := hreads.exists_peek hname (by decide)
  exact Leads.pure ⟨state.peek, rest, rfl, hname, rfl, hreads.kind_ne_eof, hreads.advance⟩

/-- Names behind commas are added behind those found before. -/
theorem moreParameters {found : List Ident} (hreads : state.advance.Reads limit room tokens)
    (hlast : state.current.kind ≠ .eof) :
    Leads (improveWhile (Parser.peekIs .comma) (Rule.onePart Rule.nextIdent) found) state
      (fun _ => True) fun names after =>
        ∃ later used rest, names = found ++ later ∧ tokens = used ++ rest ∧
          MoreParameters later used ∧ after.advance.Reads limit room rest := by
  induction hfew : state.ahead using Nat.strongRecOn generalizing state found tokens with
  | _ few ih =>
      cases hcase : state.peekIs .comma with
      | false =>
          apply Leads.improveWhile_done hcase
          exact ⟨[], [], tokens, by simp, rfl, .nil, hreads⟩
      | true =>
          have hcomma := Parser.peekIs_iff.1 hcase
          obtain ⟨tokens, rfl⟩ := hreads.exists_peek hcomma (by decide)
          have hnext : Leads (do
                let next ← Rule.nextIdent
                pure (found ++ [next]))
              state.advance (fun _ => True) fun better after =>
                ∃ name rest, tokens = name :: rest ∧ name.kind = .identifier ∧
                  better = found ++ [⟨name, name.lexeme⟩] ∧ after.current.kind ≠ .eof ∧
                  after.advance.Reads limit room rest := by
            refine Leads.bind (nextIdent hreads.advance) ?_
            rintro id after - - ⟨name, rest, htokens, hname, rfl, hlast, hbehind⟩
            exact Leads.pure ⟨name, rest, htokens, hname, rfl, hlast, hbehind⟩
          refine Leads.improveWhile_advance hcase hlast rfl hnext ?_
          rintro better after hless - ⟨name, rest, rfl, hname, rfl, hlast, hbehind⟩
          refine (ih _ (hfew ▸ hless) hbehind hlast rfl).imp ?_
          rintro names final ⟨later, used, rest, rfl, rfl, hlater, hfinal⟩
          exact ⟨_, _, rest, by simp, rfl, .cons hcomma hname hlater, hfinal⟩

theorem parameters (hreads : state.advance.Reads limit room tokens) :
    Leads Rule.parameters state (fun _ => True) fun names after =>
      ∃ used closing rest, tokens = used ++ closing :: rest ∧ Parameters names used ∧
        closing.kind = .closeParen ∧ after.current.kind ≠ .eof ∧
        after.advance.Reads limit room rest := by
  rw [Rule.parameters]
  apply Leads.inspect_bind
  by_cases hpeek : state.peekIs .closeParen = true
  · rw [if_pos hpeek]
    rw [Parser.peekIs_iff] at hpeek
    obtain ⟨rest, rfl⟩ := hreads.exists_peek hpeek (by decide)
    apply Leads.advance_bind
    exact Leads.pure ⟨[], state.peek, rest, rfl, .nil, hpeek, hreads.kind_ne_eof, hreads.advance⟩
  · rw [if_neg hpeek]
    refine Leads.bind (nextIdent hreads) ?_
    rintro id first - - ⟨name, rest, rfl, hname, rfl, hlast, hbehind⟩
    refine Leads.bind (moreParameters hbehind hlast) ?_
    rintro names after - - ⟨later, used, rest, rfl, rfl, hlater, hbehind⟩
    refine Leads.expect_bind (fun hclosing => ?_) fun _ => trivial
    obtain ⟨rest, rfl⟩ := hbehind.exists_peek hclosing (by decide)
    exact Leads.pure ⟨name :: used, after.peek, rest, rfl, .cons hname hlater, hclosing,
      hbehind.kind_ne_eof, hbehind.advance⟩

theorem function (hinner : Sound limit room inner)
    (hreads : state.Reads limit room (token :: tokens))
    (hkind : token.kind = .kwFn) :
    Leads (Rule.function inner) state (fun _ => True) fun tree after =>
      after.Past (.expression .primary tree) (room + 1) limit room (token :: tokens) := by
  rw [Rule.function]
  apply Leads.inspect_bind
  refine Leads.expect_bind (fun hopening => ?_) fun _ => trivial
  obtain ⟨tokens, rfl⟩ := hreads.advance.exists_peek hopening (by decide)
  refine Leads.bind (parameters hreads.advance.advance) ?_
  rintro names first - - ⟨used, closing, rest, rfl, hnames, hclosing, hlast, hbehind⟩
  refine Leads.expect_bind (fun hcurly => ?_) fun _ => trivial
  obtain ⟨rest, rfl⟩ := hbehind.exists_peek hcurly (by decide)
  refine Leads.bind (block hinner hbehind hcurly) ?_
  rintro body after - - ⟨inside, rest, depth, hinside, hbody, hdepth, hlast, hbehind⟩
  rw [hreads.current_cons]
  apply Leads.pure
  refine ⟨_, rest, _, ?_, .function hkind hopening hnames hclosing hbody, by omega, hlast, hbehind⟩
  rw [hinside]
  simp

/-- Arguments behind commas are added behind those found before. -/
theorem moreArguments (hinner : Sound limit room inner) {found : List Expr}
    (hreads : state.advance.Reads limit room tokens) (hlast : state.current.kind ≠ .eof) :
    Leads (improveWhile (Parser.peekIs .comma) (Rule.onePart (Rule.argument inner)) found) state
      (fun _ => True) fun trees after =>
        ∃ later used rest depth, trees = found ++ later ∧ tokens = used ++ rest ∧
          Derives (.moreArguments later) used depth ∧ depth ≤ room + 1 ∧
          after.advance.Reads limit room rest := by
  induction hfew : state.ahead using Nat.strongRecOn generalizing state found tokens with
  | _ few ih =>
      cases hcase : state.peekIs .comma with
      | false =>
          apply Leads.improveWhile_done hcase
          exact ⟨[], [], tokens, 0, by simp, rfl, .noMoreArguments, Nat.zero_le _, hreads⟩
      | true =>
          have hcomma := Parser.peekIs_iff.1 hcase
          obtain ⟨tokens, rfl⟩ := hreads.exists_peek hcomma (by decide)
          have hnext : Leads (do
                let next ← Rule.argument inner
                pure (found ++ [next]))
              state.advance (fun _ => True) fun better after =>
                ∃ tree, better = found ++ [tree] ∧
                  after.Past (.expression .equality tree) room limit room tokens := by
            refine Leads.bind (Leads.advance_bind (hinner hreads.advance)) ?_
            rintro tree after - - ⟨hpast, -⟩
            exact Leads.pure ⟨tree, rfl, hpast⟩
          refine Leads.improveWhile_advance hcase hlast rfl hnext ?_
          rintro better after hless - ⟨tree, rfl, first, rest, d₁, rfl, htree, hd₁, hlast, hbehind⟩
          refine (ih _ (hfew ▸ hless) hbehind hlast rfl).imp ?_
          rintro trees final ⟨later, second, rest, d₂, rfl, rfl, hlater, hd₂, hfinal⟩
          exact ⟨_, _, rest, _, by simp, by simp, .moreArguments hcomma htree hlater, by omega,
            hfinal⟩

theorem arguments (hinner : Sound limit room inner)
    (hreads : state.advance.Reads limit room tokens) :
    Leads (Rule.arguments inner) state (fun _ => True) fun trees after =>
      ∃ used closing rest depth, tokens = used ++ closing :: rest ∧
        Derives (.arguments trees) used depth ∧ depth ≤ room + 1 ∧ closing.kind = .closeParen ∧
        after.current.kind ≠ .eof ∧ after.advance.Reads limit room rest := by
  rw [Rule.arguments]
  apply Leads.inspect_bind
  by_cases hpeek : state.peekIs .closeParen = true
  · rw [if_pos hpeek]
    rw [Parser.peekIs_iff] at hpeek
    obtain ⟨rest, rfl⟩ := hreads.exists_peek hpeek (by decide)
    apply Leads.advance_bind
    exact Leads.pure ⟨[], state.peek, rest, 0, rfl, .noArguments, Nat.zero_le _, hpeek,
      hreads.kind_ne_eof, hreads.advance⟩
  · rw [if_neg hpeek]
    refine Leads.bind (Leads.advance_bind (hinner hreads)) ?_
    rintro tree first - - ⟨⟨used, rest, d₁, rfl, htree, hd₁, hlast, hbehind⟩, -⟩
    refine Leads.bind (moreArguments hinner hbehind hlast) ?_
    rintro trees after - - ⟨later, second, rest, d₂, rfl, rfl, hlater, hd₂, hbehind⟩
    refine Leads.expect_bind (fun hclosing => ?_) fun _ => trivial
    obtain ⟨rest, rfl⟩ := hbehind.exists_peek hclosing (by decide)
    apply Leads.pure
    exact ⟨_, after.peek, rest, _, by simp, .arguments htree hlater, by omega, hclosing,
      hbehind.kind_ne_eof, hbehind.advance⟩

theorem binary (hinner : Sound limit room inner) {stratum : Stratum} {left : Expr}
    {first : List Token}
    {depth : Nat} (hleft : Derives (.expression stratum left) first depth)
    (hdepth : depth ≤ room + 1)
    (hreads : state.Reads limit room (token :: tokens)) (hkind : token.kind ∈ stratum.operators) :
    Leads (Rule.binary inner left) state (fun _ => True) fun tree after =>
      after.Past (.expression stratum tree) (room + 1) limit room (first ++ token :: tokens) ∧
        Rule.continues stratum.power after = false := by
  have hpower : state.currentPower = stratum.power := by
    rw [Parser.currentPower, hreads.grammar, hreads.current_cons]
    exact Grammar.standard_power_of_operator (Grammar.standard_operator_of_mem hkind)
  rw [Rule.binary]
  apply Leads.inspect_bind
  apply Leads.inspect_bind
  apply Leads.advance_bind
  rw [hpower, hreads.current_cons]
  refine Leads.bind (hinner hreads.advance) ?_
  rintro right after - - ⟨⟨second, rest, height, rfl, hright, hheight, hlast, hbehind⟩, hstop⟩
  rw [Stratum.power_stratum_of_mem hkind] at hright
  apply Leads.pure
  exact ⟨⟨_, rest, _, by simp, .binary hleft hkind hright, by omega, hlast, hbehind⟩, hstop⟩

theorem call (hinner : Sound limit room inner) {callee : Expr} {first : List Token} {depth : Nat}
    (hcallee : Derives (.expression .application callee) first depth) (hdepth : depth ≤ room + 1)
    (hreads : state.Reads limit room (token :: tokens)) (hkind : token.kind = .openParen) :
    Leads (Rule.call inner callee) state (fun _ => True) fun tree after =>
      after.Past (.expression .application tree) (room + 1) limit room
        (first ++ token :: tokens) := by
  rw [Rule.call]
  apply Leads.inspect_bind
  refine Leads.bind (arguments hinner hreads.advance) ?_
  rintro trees after - - ⟨second, closing, rest, height, rfl, htrees, hheight, hclosing, hlast,
    hbehind⟩
  rw [hreads.current_cons]
  apply Leads.pure
  exact ⟨_, rest, _, by simp, .call hcallee hkind htrees hclosing, by omega, hlast, hbehind⟩

/-- The operator that goes on with an expression is taken by its rule, and what has been read is
again an expression of the same power. -/
theorem extend (hinner : Sound limit room inner) {power : Power} {left : Expr}
    (hgrown : state.Grown power left limit room tokens)
    (hmore : Rule.continues power state = true) :
    ∃ rule, Rule.extend inner left state = Rule.operatorBy inner left rule state.advance ∧
      Leads (Rule.operatorBy inner left rule) state.advance (fun _ => True) fun tree after =>
        after.Grown power tree limit room tokens := by
  obtain ⟨stratum, hrank, hbound, first, rest, depth, rfl, hleft, hdepth, hlast, hbehind⟩ := hgrown
  have hgrammar : state.grammar = .standard := hbehind.grammar
  obtain ⟨strength, rule, hoperator⟩ := Rule.operator_of_continues hmore
  rw [hgrammar] at hoperator
  have hstrength := Grammar.standard_power_of_operator hoperator
  rw [hstrength] at hbound
  rw [Rule.continues_iff hgrammar, hstrength] at hmore
  -- The operator binds more tightly than the power and no more tightly than what is on its left,
  -- so its stratum lies between the two.
  refine ⟨rule, ?_, ?_⟩
  · exact Rule.extend_of_operator hgrammar hoperator
  · rcases Grammar.standard_operator_cases hoperator with
      ⟨level, hkind, rfl, rfl⟩ | ⟨hkind, rfl, rfl⟩
    · have hlevel := Stratum.rank_le_of_power_le hkind hbound
      have hmark := Grammar.ne_eof_of_standard_operator hoperator
      obtain ⟨rest, rfl⟩ := hbehind.exists_peek rfl hmark
      refine (binary hinner (hleft.loosen hlevel) hdepth hbehind hkind).imp ?_
      rintro tree after ⟨hpast, hstop⟩
      exact ⟨level, Stratum.rank_le_of_lt_power hkind hmore,
        Rule.power_peek_le hpast.grammar hstop, hpast⟩
    · have hlevel := Stratum.application_rank_le_of_call_le hbound
      obtain ⟨rest, rfl⟩ := hbehind.exists_peek hkind (by decide)
      refine (call hinner (hleft.loosen hlevel) hdepth hbehind hkind).imp ?_
      intro tree after hpast
      exact ⟨.application, Nat.le_trans (Stratum.rank_stratum_le_unary power) (by decide),
        Power.le_call _, hpast⟩

/-- Operators are taken until none is left that binds more tightly than the power. -/
theorem absorb (hinner : Sound limit room inner) {power : Power} {left : Expr}
    (hgrown : state.Grown power left limit room tokens) :
    Leads (Rule.absorb inner power left) state (fun _ => True) fun tree after =>
      after.Past (.expression power.stratum tree) (room + 1) limit room tokens ∧
        Rule.continues power after = false := by
  rw [Rule.absorb]
  induction hfew : state.ahead using Nat.strongRecOn generalizing state left with
  | _ few ih =>
      cases hcase : Rule.continues power state with
      | false =>
          obtain ⟨stratum, hrank, -, first, rest, depth, htokens, hleft, hbehind⟩ := hgrown
          apply Leads.improveWhile_done hcase
          exact ⟨⟨first, rest, depth, htokens, hleft.loosen hrank, hbehind⟩, hcase⟩
      | true =>
          obtain ⟨rule, hstep, hnext⟩ := extend hinner hgrown hcase
          obtain ⟨stratum, -, -, hpast⟩ := hgrown
          refine Leads.improveWhile_advance hcase hpast.current_kind_ne_eof hstep hnext ?_
          intro better after hless _ hbetter
          exact ih _ (hfew ▸ hless) hbetter rfl

theorem grown_of_primary {power : Power} {tree : Expr}
    (hpast : state.Past (.expression .primary tree) (room + 1) limit room tokens) :
    state.Grown power tree limit room tokens :=
  ⟨.primary, Nat.le_trans (Stratum.rank_stratum_le_unary power) (by decide), Power.le_call _, hpast⟩

theorem start (hinner : Sound limit room inner) (power : Power)
    (hreads : state.Reads limit room tokens) :
    Leads (Rule.start inner) state (fun _ => True) fun tree after =>
      after.Grown power tree limit room tokens := by
  rw [Rule.start]
  apply Leads.inspect_bind
  apply Leads.inspect_bind
  rw [hreads.grammar]
  cases hrule : Grammar.standard.startRule state.current.kind with
  | none => exact Leads.fail trivial
  | some rule =>
      have hkind := Grammar.standard_startRule_cases hrule
      have hsome := Grammar.ne_eof_of_standard_startRule hrule
      obtain ⟨later, rfl⟩ := hreads.exists_cons hsome
      have hprimary (tree : Expr) (after : Parser σ) : after.Past (.expression .primary tree)
          (room + 1) limit room (state.current :: later) →
          after.Grown power tree limit room (state.current :: later) := grown_of_primary
      cases rule with
      | ident => exact (ident hreads hkind).imp hprimary
      | integer => exact (integer hreads hkind).imp hprimary
      | boolean => exact (boolean hreads hkind).imp hprimary
      | grouped => exact (grouped hinner hreads hkind).imp hprimary
      | conditional =>
          exact (conditional hinner hreads hkind).imp hprimary
      | function => exact (function hinner hreads hkind).imp hprimary
      | unary =>
          refine (unary hinner hreads hkind).imp ?_
          rintro tree after ⟨hpast, hstop⟩
          exact ⟨.unary, Stratum.rank_stratum_le_unary power,
            Rule.power_peek_le hpast.grammar hstop, hpast⟩

theorem body (hinner : Sound limit room inner) (power : Power)
    (hreads : state.Reads limit room tokens) :
    Leads (Rule.body inner power) state (fun _ => True) fun tree after =>
      after.Past (.expression power.stratum tree) (room + 1) limit room tokens ∧
        Rule.continues power after = false := by
  rw [Rule.body]
  refine Leads.bind (start hinner power hreads) ?_
  intro left after _ _ hgrown
  exact absorb hinner hgrown

end Sound

/-- Expressions are read soundly with any room for open ones. -/
theorem expression_sound (limit room : Nat) :
    Sound limit room (expression : Power → ParseM σ Expr) := by
  induction room with
  | zero =>
      intro power state tokens hreads
      rw [expression_eq_nested]
      refine Leads.nested (fun hopen => ?_) fun _ => trivial
      exact absurd hreads.depth_eq_limit (Nat.ne_of_lt hopen)
  | succ room ih =>
      intro power state tokens hreads
      rw [expression_eq_nested]
      refine Leads.nested (fun _ => ?_) fun _ => trivial
      refine (Sound.body ih power hreads.enter).precedes.imp ?_
      rintro tree inside ⟨hinside, ⟨used, rest, depth, htokens, htree, hdepth, hlast, hbehind⟩,
        hstop⟩
      exact ⟨⟨used, rest, depth, htokens, htree, hdepth, hlast,
        hreads.leave_advance hinside hbehind⟩, hstop⟩

/-- What is read up to the end of input without an error is a row of statements. -/
theorem parseProgram_sound {state : Parser σ} {limit room : Nat} {tokens : List Token}
    (hreads : state.Reads limit room tokens)
    (herrors : (parseProgram state).2.errors = state.errors) :
    ∃ depth ≤ room, Derives (.statements (parseProgram state).1.statements) tokens depth := by
  have hopen (state : Parser σ) (hmore : (!state.currentIs .eof) = true) :
      state.current.kind ≠ .eof := by
    simpa [Parser.currentIs] using hmore
  rcases Leads.parseProgram (Sound.statements (expression_sound limit room) hopen hreads) with
    ⟨-, after, hstop, used, rest, depth, rfl, htrees, hdepth, hafter⟩ | ⟨error, more, -, hadded⟩
  · have hnone : rest = [] := hafter.current_kind_eq_eof_iff.1 (by simpa using hstop)
    rw [hnone, List.append_nil]
    exact ⟨depth, hdepth, htrees⟩
  · rw [herrors] at hadded
    simp at hadded

/-- The program in a source without errors is derived from the tokens of the source. -/
theorem parse_sound {source : String} (hparse : (parse source).2 = []) :
    ∃ depth ≤ maxNesting,
      Derives (.statements (parse source).1.statements) (scanAll source.toList) depth := by
  apply parseProgram_sound (Parser.reads_ofSource source maxNesting)
  rw [← Array.toList_inj]
  exact hparse

/-- A source that is read without errors is its tokens in the order of a derivation, and what is
answered is the program derived.  No more expressions are open at once than there may be. -/
theorem parse_derives {source : String} (hparse : (parse source).2 = []) :
    ∃ tokens depth, tokenize source = tokens ++ [.endOfInput] ∧ depth ≤ maxNesting ∧
      Derives (.statements (parse source).1.statements) tokens depth := by
  obtain ⟨depth, hdepth, hprogram⟩ := parse_sound hparse
  exact ⟨scanAll source.toList, depth, tokenize_eq_scanAll source, hdepth, hprogram⟩

theorem parse_derives_function_and_call :
    (parse "let f = fn(x) \x7b x * -2 \x7d f(1, (2))").2 = [] ∧
      ∃ tokens depth, tokenize "let f = fn(x) \x7b x * -2 \x7d f(1, (2))" =
          tokens ++ [.endOfInput] ∧ depth ≤ maxNesting ∧
        Derives (.statements (parse "let f = fn(x) \x7b x * -2 \x7d f(1, (2))").1.statements)
          tokens depth := by
  have hparse : (parse "let f = fn(x) \x7b x * -2 \x7d f(1, (2))").2 = [] := by decide +kernel
  exact ⟨hparse, parse_derives hparse⟩

end ExprLang
