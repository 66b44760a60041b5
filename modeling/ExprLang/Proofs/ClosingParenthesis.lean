/-
The closing parenthesis behind an operand that could not be read.  Parentheses around an expression
and a conditional move past it, so that what is read next starts behind it.  A call does not: it
gives up where its argument did, and the parenthesis is read once more, as a statement that cannot
start with it.
-/
import ExprLang.Proofs.Gathering
import ExprLang.Proofs.Nesting
import ExprLang.Proofs.Progress

namespace ExprLang

open ParseM

variable {σ α : Type} [TokenSupply σ]

theorem ParseM.expect_of_kind {kind : TokenKind} {state : Parser σ}
    (hpeek : state.peek.kind = kind) : expect kind state = (some (), state.advance) := by
  rw [expect, if_pos (Parser.peekIs_iff.2 hpeek)]

namespace Rule

/-- With a comma in the lookahead, the rest of a list is one more part and the rest behind it. -/
theorem listRest_of_comma {part : ParseM σ α} [Keeps Parser.Moves part] (found : List α)
    {state : Parser σ} (hcomma : state.peek.kind = .comma) (hcurrent : state.current.kind ≠ .eof) :
    listRest part found state =
      (part >>= fun next => listRest part (found ++ [next])) state.advance := by
  have hmore : state.peekIs .comma = true := Parser.peekIs_iff.2 hcomma
  have hmoves := Keeps.after Parser.Moves part state.advance
  have hstep : onePart part found state =
      (part >>= fun next => pure (found ++ [next])) state.advance := rfl
  rcases hpart : part state.advance with ⟨_ | next, after⟩
  · rw [bind_of_none hpart] at hstep
    rw [listRest, Repetition.improveWhile_guarded,
      bind_of_none (improveWhile_of_none hmore hstep), bind_of_none hpart]
  · rw [bind_of_some hpart, pure_apply] at hstep
    rw [hpart] at hmoves
    have hless := Nat.lt_of_le_of_lt hmoves.ahead_le (Parser.ahead_advance_lt hcurrent)
    rw [bind_of_some hpart, listRest, bind_apply, Repetition.improveWhile_guarded,
      improveWhile_of_lt hmore hstep hless]
    rfl

/-- Reading a list from a parser on, some part of it is read next: the opening parenthesis or a
comma is current, and all parts in front were read. -/
inductive ReachesPart (part : ParseM σ α) (state : Parser σ) : Parser σ → Prop
  | first (hpeek : state.peek.kind ≠ .closeParen) : ReachesPart part state state
  | next {begun behind : Parser σ} {value : α} :
      ReachesPart part state begun → part begun = (some value, behind) →
      behind.peek.kind = .comma → ReachesPart part state behind.advance

theorem ReachesPart.moves {part : ParseM σ α} [Keeps Parser.Moves part] {state begun : Parser σ}
    (hreaches : ReachesPart part state begun) : state.Moves begun := by
  induction hreaches with
  | first hpeek => exact Enduring.refl state
  | @next begun behind value hreaches hpart hcomma ih =>
      have hkept := Keeps.after Parser.Moves part begun
      rw [hpart] at hkept
      exact Enduring.trans (Enduring.trans ih hkept) (Enduring.advance behind)

/-- Once a part is reached, reading the list is reading that part and the rest behind it. -/
theorem ReachesPart.listOf_eq {part : ParseM σ α} [Keeps Parser.Moves part]
    {state begun : Parser σ} {tokens : List Token} (hleft : state.HasLeft tokens)
    (hreaches : ReachesPart part state begun) :
    ∃ found, listOf part state = (part >>= fun next => listRest part (found ++ [next])) begun := by
  induction hreaches with
  | first hpeek =>
      refine ⟨[], ?_⟩
      rw [listOf, bind_apply, inspect_apply]
      dsimp only
      rw [if_neg fun hclosing => hpeek (Parser.peekIs_iff.1 hclosing)]
      rfl
  | @next begun behind value hreaches hpart hcomma ih =>
      obtain ⟨found, hlist⟩ := ih
      have hpassed := Keeps.after Parser.Moves part begun
      rw [hpart] at hpassed
      obtain ⟨rest, hrest⟩ := hleft.exists_of_moves (Enduring.trans hreaches.moves hpassed)
      have hcurrent := hrest.current_kind_ne_eof (by rw [hcomma]; decide)
      refine ⟨found ++ [value], ?_⟩
      rw [hlist, bind_of_some hpart, listRest_of_comma _ hcomma hcurrent]

/-- A list whose next part cannot be read is given up where that part was. -/
theorem ReachesPart.listOf_of_none {part : ParseM σ α} [Keeps Parser.Moves part]
    {state begun failed : Parser σ} {tokens : List Token} (hleft : state.HasLeft tokens)
    (hreaches : ReachesPart part state begun) (hfails : part begun = (none, failed)) :
    listOf part state = (none, failed) := by
  obtain ⟨found, hlist⟩ := hreaches.listOf_eq hleft
  rw [hlist, bind_of_none hfails]

end Rule

/-- A token that starts no expression is an error where one is read, and stays current. -/
theorem expression_of_startRule_none (power : Power) {state : Parser σ}
    (hopen : state.depth < state.limit)
    (hrule : state.grammar.startRule state.current.kind = none) :
    expression power state =
      (none, (state.opened.record (.noExpression state.current.kind)).leave) := by
  have hstart : Rule.start expression state.opened =
      (none, state.opened.record (.noExpression state.current.kind)) := by
    rw [Rule.start, bind_apply, inspect_apply]
    dsimp only
    rw [bind_apply, inspect_apply]
    dsimp only
    rw [show state.opened.grammar.startRule state.opened.current.kind = none from hrule]
    rfl
  rw [expression_eq_nested, nested_eq_opened _ hopen, opened_apply, Rule.body, bind_of_none hstart]

/-- A closing parenthesis is no statement. -/
theorem Rule.statement_of_closeParen {state : Parser σ} (hstandard : state.grammar = .standard)
    (hopen : state.depth < state.limit) (hcurrent : state.current.kind = .closeParen) :
    (Rule.statement expression state).2.errors.toList =
      state.errors.toList ++ [.noExpression .closeParen] := by
  have hnone : state.grammar.startRule state.current.kind = none := by
    rw [hstandard, hcurrent]
    rfl
  have hread := expression_of_startRule_none .lowest hopen hnone
  rw [hcurrent] at hread
  have hskip (after : Parser σ) : (skipSemicolon after).2.errors = after.errors := by
    rw [skipSemicolon]
    split <;> rfl
  have hstatement : Rule.statement expression state = expressionStatement expression state := by
    rw [statement, bind_apply, inspect_apply]
    dsimp only
    rw [hstandard, hcurrent]
    rfl
  have hlast : (expressionStatement expression state).2 =
      (skipSemicolon (state.opened.record (.noExpression .closeParen)).leave).2 := by
    rw [expressionStatement, bind_apply, inspect_apply]
    dsimp only
    rw [bind_apply, attempt_apply, hread]
    rfl
  rw [hstatement, hlast, hskip]
  exact Parser.record_errors _ state.opened

section Operands

variable {inner : Power → ParseM σ Expr} {state failed : Parser σ}

/-- Parentheses around what cannot be read give up behind the closing one. -/
theorem Rule.grouped_of_none (hfails : inner .lowest state.advance = (none, failed))
    (hclosing : failed.peek.kind = .closeParen) :
    Rule.grouped inner state = (none, failed.advance) := by
  have hattempt : attempt (inner .lowest) state.advance = (some none, failed) := by
    rw [attempt_apply, hfails]
  have hadvance : advance state = (some (), state.advance) := rfl
  rw [Rule.grouped, bind_of_some hadvance, bind_of_some hattempt,
    bind_of_some (expect_of_kind hclosing), answer_apply]

/-- A conditional moves past the parenthesis behind a condition that cannot be read. -/
theorem Rule.conditional_of_none [∀ power, Keeps Parser.Moves (inner power)]
    (hopening : state.peek.kind = .openParen)
    (hfails : inner .lowest state.advance.advance = (none, failed))
    (hclosing : failed.peek.kind = .closeParen) :
    failed.advance.Moves (Rule.conditional inner state).2 := by
  have hattempt : attempt (inner .lowest) state.advance.advance = (some none, failed) := by
    rw [attempt_apply, hfails]
  have hadvance : advance state.advance = (some (), state.advance.advance) := rfl
  have hrest : Rule.conditional inner state =
      Rule.arms inner state.current none failed.advance := by
    rw [Rule.conditional, bind_apply, inspect_apply]
    dsimp only
    rw [bind_of_some (expect_of_kind hopening), Rule.condition, bind_of_some hadvance,
      bind_of_some hattempt, bind_of_some (expect_of_kind hclosing)]
  rw [hrest]
  exact Keeps.after Parser.Moves (Rule.arms inner state.current none) failed.advance

/-- A call gives up where its argument did. -/
theorem Rule.call_of_none {tokens : List Token} {begun : Parser σ} (callee : Expr)
    (hleft : state.HasLeft tokens) (hreaches : ReachesPart (argument expression) state begun)
    (hfails : expression .lowest begun.advance = (none, failed)) :
    Rule.call expression callee state = (none, failed) := by
  have harguments : Rule.listOf (Rule.argument expression) state = (none, failed) :=
    hreaches.listOf_of_none hleft hfails
  change Rule.arguments expression state = (none, failed) at harguments
  rw [Rule.call, bind_apply, inspect_apply]
  dsimp only
  rw [bind_of_none harguments]

end Operands

/-- What becomes of a closing parenthesis behind an operand that cannot be read.  Parentheses around
an expression move past it and so does a conditional.  A call leaves it in the lookahead, whichever
of its arguments it was; where one more expression may be open, what is read behind is then a
statement that cannot start with it, a second error for one fault. -/
theorem closeParen_of_failed_operand {state : Parser Lexer} (hreachable : state.Reachable)
    (hstandard : state.grammar = .standard) :
    (∀ failed, expression .lowest state.advance = (none, failed) →
      failed.peek.kind = .closeParen →
      Rule.grouped expression state = (none, failed.advance)) ∧
    (∀ failed, state.peek.kind = .openParen →
      expression .lowest state.advance.advance = (none, failed) →
      failed.peek.kind = .closeParen →
      failed.advance.Moves (Rule.conditional expression state).2) ∧
    ∀ callee begun failed, Rule.ReachesPart (Rule.argument expression) state begun →
      expression .lowest begun.advance = (none, failed) → failed.peek.kind = .closeParen →
      Rule.call expression callee state = (none, failed) ∧
        (state.depth < maxNesting →
          (Rule.statement expression failed.advance).2.errors.toList =
            failed.errors.toList ++ [.noExpression .closeParen]) := by
  refine ⟨fun failed => Rule.grouped_of_none, fun failed => Rule.conditional_of_none, ?_⟩
  intro callee begun failed hreaches hfails hclosing
  obtain ⟨tokens, hleft⟩ := hreachable.exists_hasLeft
  have hcall := Rule.call_of_none callee hleft hreaches hfails
  refine ⟨hcall, fun hopen => ?_⟩
  have hlater := Keeps.after Parser.Precedes (Rule.call expression callee) state
  rw [hcall] at hlater
  have hroom : failed.depth < failed.limit := by
    rw [hlater.depth, hlater.limit, hreachable.withinBounds.limit]
    exact hopen
  have hgrammar : failed.advance.grammar = .standard := hlater.grammar.trans hstandard
  exact Rule.statement_of_closeParen hgrammar hroom hclosing

/-- In front of a call whose argument cannot be read. -/
def failingCall : Parser Lexer :=
  .ofSupply (.ofSource "f(*)") maxNesting

/-- From the name on, the tokens of a failing call make a conditional move past the parenthesis;
from the opening parenthesis on, parentheses around an expression move past it and a call does
not. -/
theorem closeParen_of_failed_operand_asterisk :
    failingCall.Reachable ∧ failingCall.advance.Reachable ∧ failingCall.grammar = .standard ∧
      (expression .lowest failingCall.advance.advance).1 = none ∧
      (expression .lowest failingCall.advance.advance).2.peek.kind = .closeParen ∧
      (expression .lowest failingCall.advance.advance).2.advance.Moves
        (Rule.conditional expression failingCall).2 ∧
      Rule.grouped expression failingCall.advance =
        (none, (expression .lowest failingCall.advance.advance).2.advance) ∧
      Rule.call expression (.ident failingCall.currentIdent) failingCall.advance =
        (none, (expression .lowest failingCall.advance.advance).2) ∧
      (Rule.statement expression
        (expression .lowest failingCall.advance.advance).2.advance).2.errors.toList =
        [.noExpression .asterisk, .noExpression .closeParen] := by
  have hreachable : failingCall.Reachable := .new _
  have hadvanced : failingCall.advance.Reachable := .run .advance hreachable
  have hnone : (expression .lowest failingCall.advance.advance).1 = none := by decide +kernel
  have hclosing : (expression .lowest failingCall.advance.advance).2.peek.kind = .closeParen := by
    decide +kernel
  have hfails : expression .lowest failingCall.advance.advance =
      (none, (expression .lowest failingCall.advance.advance).2) := Prod.ext hnone rfl
  have hreaches : Rule.ReachesPart (Rule.argument expression) failingCall.advance
      failingCall.advance := .first (by decide +kernel)
  obtain ⟨-, hconditional, -⟩ := closeParen_of_failed_operand hreachable rfl
  obtain ⟨hgrouped, -, hcall⟩ := closeParen_of_failed_operand hadvanced rfl
  obtain ⟨hleft, hagain⟩ := hcall (.ident failingCall.currentIdent) _ _ hreaches hfails hclosing
  have herrors : (expression .lowest failingCall.advance.advance).2.errors.toList =
      [.noExpression .asterisk] := by decide +kernel
  have htwo := (hagain (by decide +kernel)).trans
    (congrArg (· ++ [SyntaxError.noExpression .closeParen]) herrors)
  exact ⟨hreachable, hadvanced, rfl, hnone, hclosing,
    hconditional _ (by decide +kernel) hfails hclosing, hgrouped _ hfails hclosing, hleft, htwo⟩

/-- One fault between parentheses is one error, but in the arguments of a call it is two: a call
does not always move past the parenthesis behind an argument that cannot be read. -/
theorem call_leaves_closeParen :
    (parse "(*)").2 = [.noExpression .asterisk] ∧
      (parse "f(*)").2 = [.noExpression .asterisk, .noExpression .closeParen] ∧
      ¬ ∀ (state begun failed : Parser Lexer) (callee : Expr), state.Reachable →
        state.grammar = .standard → Rule.ReachesPart (Rule.argument expression) state begun →
        expression .lowest begun.advance = (none, failed) → failed.peek.kind = .closeParen →
        failed.advance.Moves (Rule.call expression callee state).2 := by
  refine ⟨by decide +kernel, by decide +kernel, fun hmoves => ?_⟩
  have hreachable : failingCall.Reachable := .new _
  have hpast := hmoves failingCall.advance failingCall.advance
    (expression .lowest failingCall.advance.advance).2 (.ident failingCall.currentIdent)
    (.run .advance hreachable) rfl (.first (by decide +kernel))
    (Prod.ext (by decide +kernel) rfl) (by decide +kernel)
  exact absurd hpast.ahead_le (by decide +kernel)

end ExprLang
