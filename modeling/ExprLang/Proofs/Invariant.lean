/-
What holds of a parser all along while a program is read.  An invariant comes in two strengths: the
stronger one holds where an expression is about to be read and behind it, and only the weaker one
while the expression is open.  A move past a token that is not the end of input makes up for the
difference.  An invariant that the moves keep, and that an error keeps which the parser finds where
it stands, is kept by every rule of the language, and so to the end of the program.
-/
import ExprLang.Proofs.Gathering

namespace ExprLang

open ParseM

/-- The kinds that can be due behind the current token. -/
def TokenKind.due : List TokenKind :=
  [.identifier, .assign, .openParen, .closeParen, .openCurly]

/-- What can be wrong with the tokens where a parser stands: one that is due does not come next, a
block goes up to the end of input, no expression starts here, or a number cannot be held. -/
inductive Parser.Finds {σ : Type} (state : Parser σ) : SyntaxError → Prop
  | missing {kind : TokenKind} (hdue : kind ∈ TokenKind.due) (hpeek : state.peek.kind ≠ kind) :
      Finds state (.unexpectedToken kind state.peek.kind)
  | unclosed (hcurrent : state.current.kind = .eof) :
      Finds state (.unexpectedToken .closeCurly .eof)
  | noExpression (hrule : state.grammar.startRule state.current.kind = none) :
      Finds state (.noExpression state.current.kind)
  | badInteger (hkind : state.current.kind = .integer)
      (hvalue : readInteger? state.current.lexeme = none) :
      Finds state (.badInteger state.current.lexeme)

/-- What holds of a parser while it reads the language with room for so many more open expressions:
`ready` where it is about to read an expression, and `during` all along. -/
structure Invariant (σ : Type) [TokenSupply σ] where
  ready : Nat → Parser σ → Prop
  during : Nat → Parser σ → Prop
  grammar {room : Nat} {state : Parser σ} : during room state → state.grammar = .standard
  current {room : Nat} {state : Parser σ} : during room state → state.peek.kind ≠ .eof →
    state.current.kind ≠ .eof
  weaken {room : Nat} {state : Parser σ} : ready room state → during room state
  record_ready {room : Nat} {state : Parser σ} {error : SyntaxError} : ready room state →
    state.Finds error → ready room (state.record error)
  record {room : Nat} {state : Parser σ} {error : SyntaxError} : during room state →
    state.Finds error → during room (state.record error)
  move {room : Nat} {state : Parser σ} : during room state → state.current.kind ≠ .eof →
    ready room state.advance
  -- Behind a statement the parser may move on past the end of input; then only the weaker form has
  -- to hold, as no expression is read there.
  pass {room : Nat} {state : Parser σ} : ready room state → during room state.advance
  resume {room : Nat} {state : Parser σ} : ready room state → state.advance.current.kind ≠ .eof →
    ready room state.advance
  -- Refusing an expression is no finding about the tokens, and happens only where one is due.
  full {state : Parser σ} : ready 0 state → ¬ state.depth < state.limit
  refuse {room : Nat} {state : Parser σ} : ready room state → ¬ state.depth < state.limit →
    ready room (state.record (.nestingTooDeep state.limit))
  enter {room : Nat} {state : Parser σ} : ready (room + 1) state → state.depth < state.limit →
    during room state.enter.2
  leave {room : Nat} {state inside : Parser σ} : ready (room + 1) state →
    state.enter.2.Precedes inside → during room inside → ready (room + 1) inside.leave

/-- Behind an action a condition holds of the parser, whether or not the action answers. -/
def Leaves {σ α : Type} (action : ParseM σ α) (state : Parser σ) (holds : Parser σ → Prop) : Prop :=
  Ensures (fun _ => False) action state (fun _ after => holds after) holds

namespace Invariant

open ExprLang.Parser

variable {σ α β : Type} [TokenSupply σ] (I : Invariant σ) {room : Nat} {state : Parser σ}

/-- Expressions keep an invariant, with room for so many. -/
def KeptByExpressions (room : Nat) : Prop :=
  ∀ {power : Power} {state : Parser σ}, I.ready room state →
    Leaves (expression power) state (I.ready room)

/-- Where a statement or the end of input comes next. -/
def Between (room : Nat) (state : Parser σ) : Prop :=
  I.during room state ∧ (state.current.kind ≠ .eof → I.ready room state)

theorem expect_bind {kind : TokenKind} {next : Unit → ParseM σ β} {final : β → Parser σ → Prop}
    {stopped : Parser σ → Prop} (hkind : kind ∈ TokenKind.due) (hstate : I.during room state)
    (hstop : ∀ error, state.Finds error → stopped (state.record error))
    (hnext : state.advance.current.kind ≠ .eof → I.ready room state.advance →
      Ensures (fun _ => False) (next ()) state.advance final stopped) :
    Ensures (fun _ => False) (expect kind >>= next) state final stopped := by
  refine Ensures.expect_bind (fun hpeek => ?_) fun hpeek => Or.inr (hstop _ (.missing hkind hpeek))
  have hsome : state.peek.kind ≠ .eof := by
    rintro heof
    rw [← hpeek, heof] at hkind
    contradiction
  exact hnext hsome (I.move hstate (I.current hstate hsome))

theorem skipSemicolon (hstate : I.ready room state) :
    Leaves Rule.skipSemicolon state (I.ready room) := by
  refine Or.inr ?_
  rw [Rule.skipSemicolon]
  dsimp only
  split
  · next hpeek =>
      have hduring := I.weaken hstate
      exact I.move hduring (I.current hduring (peek_kind_ne_eof hpeek (by decide)))
  · exact hstate

variable {I}

section Statements

variable (hinner : I.KeptByExpressions room) (hstate : I.ready room state)
  (hcurrent : state.current.kind ≠ .eof)
include hinner hstate hcurrent

/-- What ends a binding and a return: an expression behind the current token, whether or not it is
read, and a semicolon. -/
theorem lastExpression (result : Option Expr → Stmt) :
    Leaves (do
        advance
        let value ← attempt (expression .lowest)
        Rule.skipSemicolon
        pure (result value))
      state (I.ready room) := by
  apply Ensures.advance_bind
  exact Ensures.attempt_bind (hinner (I.move (I.weaken hstate) hcurrent))
    (fun _ _ hafter => Ensures.bind_pure (I.skipSemicolon hafter))
    fun _ hafter => Ensures.bind_pure (I.skipSemicolon hafter)

omit hcurrent in
theorem binding : Leaves (Rule.binding expression) state (I.ready room) := by
  rw [Rule.binding]
  apply Ensures.inspect_bind
  refine I.expect_bind (by decide) (I.weaken hstate) (fun _ => I.record_ready hstate) ?_
  intro _ hname
  apply Ensures.inspect_bind
  refine I.expect_bind (by decide) (I.weaken hname) (fun _ => I.record_ready hname) ?_
  intro hsome hsign
  exact lastExpression hinner hsign hsome _

theorem returning : Leaves (Rule.returning expression) state (I.ready room) := by
  rw [Rule.returning]
  apply Ensures.inspect_bind
  exact lastExpression hinner hstate hcurrent _

omit hcurrent in
theorem expressionStatement :
    Leaves (Rule.expressionStatement expression) state (I.ready room) := by
  have hend (token : Token) (value : Option Expr) (after : Parser σ) (hafter : I.ready room after) :
      Leaves (do
          Rule.skipSemicolon
          let expression ← answer value
          pure (Stmt.expression token expression))
        after (I.ready room) := by
    refine Ensures.bind (I.skipSemicolon hafter) fun _ last hlast => ?_
    exact Ensures.bind_pure (Ensures.answer (fun _ _ => hlast) fun _ => hlast)
  rw [Rule.expressionStatement]
  apply Ensures.inspect_bind
  exact Ensures.attempt_bind (hinner hstate) (fun value => hend _ (some value)) (hend _ none)

theorem statement : Leaves (Rule.statement expression) state (I.ready room) := by
  rw [Rule.statement]
  apply Ensures.inspect_bind
  cases (state.grammar.statementRule state.current.kind).getD .expression with
  | binding => exact binding hinner hstate
  | returning => exact returning hinner hstate hcurrent
  | expression => exact expressionStatement hinner hstate

end Statements

/-- One round of reading statements: a statement and the advance behind it. -/
theorem statement_advance (hinner : I.KeptByExpressions room) (hstate : I.Between room state)
    (hcurrent : state.current.kind ≠ .eof) :
    Ensures (fun _ => False) (Rule.statement expression) state
      (fun _ after => I.Between room after.advance) fun after => I.Between room after.advance :=
  Ensures.mono (statement hinner (hstate.2 hcurrent) hcurrent)
    (fun _ _ hafter => ⟨I.pass hafter, I.resume hafter⟩)
    fun _ hafter => ⟨I.pass hafter, I.resume hafter⟩

theorem block (hinner : I.KeptByExpressions room) (hstate : I.during room state)
    (hcurrent : state.current.kind ≠ .eof) :
    Leaves (always (Rule.block expression)) state (I.during room) := by
  have hopening := I.move hstate hcurrent
  exact Ensures.block (I.Between room) ⟨I.weaken hopening, fun _ => hopening⟩
    (fun _ _ hcurrent hstate => statement_advance hinner hstate hcurrent)
    (fun _ _ _ hafter => hafter.1)
    fun _ _ heof hafter => Or.inr (I.record hafter.1 (.unclosed heof))

/-- The other arm of a conditional. -/
theorem alternative (hinner : I.KeptByExpressions room) (hstate : I.during room state) :
    Leaves (Rule.alternative expression) state (I.during room) := by
  rw [Rule.alternative]
  apply Ensures.inspect_bind
  by_cases hpeek : state.peekIs .kwElse = true
  · rw [if_pos hpeek]
    have helse := I.weaken
      (I.move hstate (I.current hstate (peek_kind_ne_eof hpeek (by decide))))
    apply Ensures.advance_bind
    refine I.expect_bind (by decide) helse (fun _ => I.record helse) fun hsome hcurly => ?_
    exact Ensures.bind_pure (block hinner (I.weaken hcurly) hsome)
  · rw [if_neg hpeek]
    exact Ensures.pure hstate

/-- Parts with commas between them, from that of each part. -/
theorem listOf {part : ParseM σ α} [Keeps Parser.Precedes part]
    (hpart : ∀ state : Parser σ, state.current.kind ≠ .eof → I.during room state →
      Leaves part state (I.during room))
    (hstate : I.during room state) (hcurrent : state.current.kind ≠ .eof) :
    Leaves (Rule.listOf part) state (I.during room) := by
  refine Ensures.listOf (fun _ => I.during room) (fun _ => I.weaken (I.move hstate hcurrent))
    (fun _ => hpart state hcurrent hstate) (fun found after hcomma hafter => ?_)
    fun found last _ hlast => ?_
  · have hsome : after.peek.kind ≠ .eof := by rw [hcomma]; decide
    have hopen := I.current hafter hsome
    exact ⟨hopen, hpart after.advance hsome (I.weaken (I.move hafter hopen))⟩
  · exact I.expect_bind (by decide) hlast (fun _ => I.record hlast) fun _ hclosing =>
      Ensures.pure (I.weaken hclosing)

section Expressions

variable (hinner : I.KeptByExpressions room) (hstate : I.during room state)
  (hcurrent : state.current.kind ≠ .eof)
include hinner hstate hcurrent

/-- An expression behind a token that is not the end of input. -/
theorem inner {power : Power} : Leaves (expression power) state.advance (I.during room) :=
  Ensures.mono (hinner (I.move hstate hcurrent)) (fun _ _ => I.weaken) fun _ => I.weaken

theorem unary : Leaves (Rule.unary expression) state (I.during room) := by
  rw [Rule.unary]
  apply Ensures.inspect_bind
  apply Ensures.advance_bind
  exact Ensures.bind_pure (inner hinner hstate hcurrent)

theorem grouped : Leaves (Rule.grouped expression) state (I.during room) := by
  have hclosing (expression : Option Expr) (after : Parser σ) (hafter : I.during room after) :
      Leaves (do
          expect .closeParen
          answer expression)
        after (I.during room) :=
    I.expect_bind (by decide) hafter (fun _ => I.record hafter) fun _ hdone =>
      Ensures.answer (fun _ _ => I.weaken hdone) fun _ => I.weaken hdone
  rw [Rule.grouped]
  apply Ensures.advance_bind
  exact Ensures.attempt_bind (inner hinner hstate hcurrent) (fun value => hclosing (some value))
    (hclosing none)

omit hcurrent in
theorem conditional : Leaves (Rule.conditional expression) state (I.during room) := by
  have harms (token : Token) (condition : Option Expr) (after : Parser σ)
      (hafter : I.during room after) :
      Leaves (do
          expect .closeParen
          Rule.arms expression token condition)
        after (I.during room) := by
    refine I.expect_bind (by decide) hafter (fun _ => I.record hafter) fun _ hclosing => ?_
    have hclosed := I.weaken hclosing
    refine I.expect_bind (by decide) hclosed (fun _ => I.record hclosed) fun hsome hcurly => ?_
    refine Ensures.bind (block hinner (I.weaken hcurly) hsome) fun consequent last hlast => ?_
    refine Ensures.bind (alternative hinner hlast) fun other final hfinal => ?_
    exact Ensures.bind_pure (Ensures.answer (fun _ _ => hfinal) fun _ => hfinal)
  rw [Rule.conditional]
  apply Ensures.inspect_bind
  refine I.expect_bind (by decide) hstate (fun _ => I.record hstate) fun hsome hopening => ?_
  apply Ensures.advance_bind
  exact Ensures.attempt_bind (inner hinner (I.weaken hopening) hsome)
    (fun condition => harms _ (some condition)) (harms _ none)

omit hcurrent in
theorem function : Leaves (Rule.function expression) state (I.during room) := by
  have hname (state : Parser σ) (_ : state.current.kind ≠ .eof) (hstate : I.during room state) :
      Leaves Rule.nextIdent state (I.during room) := by
    rw [Rule.nextIdent]
    exact I.expect_bind (by decide) hstate (fun _ => I.record hstate) fun _ hname =>
      Or.inr (I.weaken hname)
  rw [Rule.function]
  apply Ensures.inspect_bind
  refine I.expect_bind (by decide) hstate (fun _ => I.record hstate) fun hsome hopening => ?_
  refine Ensures.bind (listOf hname (I.weaken hopening) hsome) fun names after hafter => ?_
  refine I.expect_bind (by decide) hafter (fun _ => I.record hafter) fun hsome hcurly => ?_
  exact Ensures.bind_pure (block hinner (I.weaken hcurly) hsome)

theorem operatorBy (left : Expr) (rule : OperatorRule) :
    Leaves (Rule.operatorBy expression left rule) state (I.during room) := by
  cases rule with
  | binary =>
      rw [Rule.operatorBy, Rule.binary]
      apply Ensures.inspect_bind
      apply Ensures.inspect_bind
      apply Ensures.advance_bind
      exact Ensures.bind_pure (inner hinner hstate hcurrent)
  | call =>
      have hargument (state : Parser σ) (hcurrent : state.current.kind ≠ .eof)
          (hstate : I.during room state) :
          Leaves (Rule.argument expression) state (I.during room) :=
        Ensures.advance_bind (inner hinner hstate hcurrent)
      rw [Rule.operatorBy, Rule.call]
      apply Ensures.inspect_bind
      exact Ensures.bind_pure (listOf hargument hstate hcurrent)

omit hinner hcurrent in
theorem integer (hkind : state.current.kind = .integer) :
    Leaves Rule.integer state (I.during room) := by
  rw [Rule.integer]
  apply Ensures.inspect_bind
  cases hvalue : readInteger? state.current.lexeme with
  | some value => exact Ensures.pure hstate
  | none => exact Ensures.fail (I.record hstate (.badInteger hkind hvalue))

omit hcurrent in
theorem start : Leaves (Rule.start expression) state (I.during room) := by
  rw [Rule.start]
  apply Ensures.inspect_bind
  apply Ensures.inspect_bind
  have hgrammar := I.grammar hstate
  cases hrule : state.grammar.startRule state.current.kind with
  | none => exact Ensures.fail (I.record hstate (.noExpression hrule))
  | some rule =>
      rw [hgrammar] at hrule
      have hcurrent := Grammar.ne_eof_of_standard_startRule hrule
      cases rule with
      | ident | boolean => exact Or.inr hstate
      | integer => exact integer hstate (Grammar.standard_startRule_cases hrule)
      | unary => exact unary hinner hstate hcurrent
      | grouped => exact grouped hinner hstate hcurrent
      | conditional => exact conditional hinner hstate
      | function => exact function hinner hstate

omit hcurrent in
theorem body (power : Power) : Leaves (Rule.body expression power) state (I.during room) := by
  rw [Rule.body]
  refine Ensures.bind (start hinner hstate) fun left after hafter => ?_
  refine Ensures.mono (Ensures.absorb (I.during room) hafter (fun _ => I.grammar)
    (fun _ => I.current) ?_) (fun _ _ hlast => hlast.2) fun _ hstop => hstop
  intro left after strength rule hafter _ _ hpeek
  exact operatorBy hinner (I.weaken (I.move hafter (I.current hafter hpeek))) hpeek left rule

end Expressions

/-- Expressions keep an invariant.  The induction is on the room that is left for them. -/
theorem keptByExpressions (I : Invariant σ) (room : Nat) : I.KeptByExpressions room := by
  induction room with
  | zero =>
      intro power state hstate
      rw [expression_eq_nested]
      exact Ensures.nested (fun hopen => absurd hopen (I.full hstate))
        fun hfull => Or.inr (I.refuse hstate hfull)
  | succ room ih =>
      intro power state hstate
      rw [expression_eq_nested]
      refine Ensures.nested (fun hopen => ?_)
        fun hfull => Or.inr (I.refuse hstate hfull)
      exact Ensures.mono (body ih (I.enter hstate hopen) power).precedes
        (fun _ _ hinside => I.leave hstate hinside.1 hinside.2)
        fun _ hinside => I.leave hstate hinside.1 hinside.2

/-- An invariant holds at the end of a program if it holds at its start.  What is reported last
changes nothing else. -/
theorem parseProgram (I : Invariant σ) (hstate : I.ready room state) :
    ∃ after event,
      (ExprLang.parseProgram state).2 = { after with log := after.log.push event } ∧
      after.current.kind = .eof ∧ I.during room after := by
  obtain ⟨after, event, hfinal, hafter⟩ := Ensures.parseProgram (I.Between room)
    ⟨I.weaken hstate, fun _ => hstate⟩ fun _ hcurrent hbetween =>
      statement_advance (I.keptByExpressions room) hbetween hcurrent
  obtain ⟨heof, hbetween⟩ := hafter.resolve_left id
  exact ⟨after, event, hfinal, heof, hbetween.1⟩

end Invariant

end ExprLang
