/-
Errors are charged to tokens.  Each error that is recorded can be charged to a token of its own that
accounts for it: the token that no expression starts with, the number that cannot be held, or the
token that opened the construct in which something is missing.  No token is passed over but those
that are part of the language.  So there are no more errors than tokens, and every illegal character
is reported exactly once, unless nesting stands in the way.
-/
import ExprLang.Proofs.Effect
import ExprLang.Proofs.Precedence
import ExprLang.Proofs.Reading

namespace ExprLang

open ParseM

/-- The kinds that can be found missing in a construct that a kind opens. -/
def TokenKind.demands : TokenKind → List TokenKind
  | kwLet => [identifier, assign]
  | kwIf => [openParen, closeParen, openCurly]
  | kwFn => [openParen, identifier, closeParen, openCurly]
  | openParen => [closeParen]
  | openCurly => [closeCurly]
  | _ => []

/-- What is missing could have been there. -/
theorem TokenKind.ne_of_mem_demands {opener kind : TokenKind} (hkind : kind ∈ opener.demands) :
    kind ≠ .eof ∧ kind ≠ .illegal := by
  cases opener <;> simp [demands] at hkind <;> grind

/-- What a token has to be for an error to be charged to it. -/
def Token.AccountsFor (token : Token) : SyntaxError → Prop
  | .unexpectedToken expected _ => expected ∈ token.kind.demands
  | .noExpression kind => token.kind = kind
  | .badInteger lexeme => token.kind = .integer ∧ token.lexeme = lexeme
  | .nestingTooDeep _ => True

/-- Errors, in whatever order, are charged to tokens of their own that account for them.  An illegal
token does not go without. -/
inductive Charges : List Token → List SyntaxError → Prop
  | nil : Charges [] []
  | free {token : Token} {tokens : List Token} {errors : List SyntaxError} :
      token.kind ≠ .illegal → Charges tokens errors → Charges (token :: tokens) errors
  | charged {token : Token} {error : SyntaxError} {tokens : List Token}
      {errors : List SyntaxError} :
      token.AccountsFor error → Charges tokens errors → Charges (token :: tokens) (error :: errors)
  | perm {tokens : List Token} {errors others : List SyntaxError} :
      Charges tokens errors → errors.Perm others → Charges tokens others

namespace Charges

variable {tokens later : List Token} {errors others : List SyntaxError} {token : Token}
  {error : SyntaxError}

theorem append (hfirst : Charges tokens errors) (hsecond : Charges later others) :
    Charges (tokens ++ later) (errors ++ others) := by
  induction hfirst with
  | nil => exact hsecond
  | free hkind _ ih => exact .free hkind ih
  | charged haccounts _ ih => exact .charged haccounts ih
  | perm _ hperm ih => exact .perm ih (hperm.append_right others)

/-- What is recorded last can be charged to what comes first. -/
theorem cons_concat (haccounts : token.AccountsFor error) (hcharges : Charges tokens errors) :
    Charges (token :: tokens) (errors ++ [error]) :=
  .perm (.charged haccounts hcharges) (List.perm_append_singleton error errors).symm

/-- There are no more errors than tokens. -/
theorem length_le (hcharges : Charges tokens errors) : errors.length ≤ tokens.length := by
  induction hcharges with
  | nil => exact Nat.le_refl 0
  | free _ _ ih => exact Nat.le_succ_of_le ih
  | charged _ _ ih => exact Nat.succ_le_succ ih
  | perm _ hperm ih => rwa [← hperm.length_eq]

/-- There are no more errors of a sort than tokens that account for such errors. -/
theorem countP_le {faulty : SyntaxError → Bool} {guilty : Token → Bool}
    (hguilty : ∀ token error, Token.AccountsFor token error → faulty error = true →
      guilty token = true)
    (hcharges : Charges tokens errors) : errors.countP faulty ≤ tokens.countP guilty := by
  induction hcharges with
  | nil => exact Nat.le_refl 0
  | free _ _ ih => exact Nat.le_trans ih (List.sublist_cons_self _ _).countP_le
  | @charged token error tokens errors haccounts _ ih =>
      rw [List.countP_cons, List.countP_cons]
      by_cases hfaulty : faulty error = true
      · rw [if_pos hfaulty, if_pos (hguilty token error haccounts hfaulty)]
        exact Nat.succ_le_succ ih
      · rw [if_neg hfaulty]
        exact Nat.le_add_right_of_le ih
  | perm _ hperm ih => rwa [← hperm.countP_eq]

end Charges

/-- An illegal token is to blame only for itself and for nesting. -/
theorem Token.AccountsFor.of_illegal {token : Token} {error : SyntaxError}
    (haccounts : token.AccountsFor error) (hkind : token.kind = .illegal) :
    error = .noExpression .illegal ∨ ∃ limit, error = .nestingTooDeep limit := by
  cases error with
  | unexpectedToken expected found => simp [AccountsFor, hkind, TokenKind.demands] at haccounts
  | noExpression kind => exact Or.inl (by rw [← haccounts, hkind])
  | badInteger lexeme => exact absurd haccounts.1 (by rw [hkind]; decide)
  | nestingTooDeep limit => exact Or.inr ⟨limit, rfl⟩

/-- Illegal tokens that are reported, each once and for no other token. -/
theorem Charges.count_illegal {tokens : List Token} {errors : List SyntaxError}
    (hcharges : Charges tokens errors) :
    errors.count (.noExpression .illegal) ≤ (tokens.map Token.kind).count .illegal ∧
      ((∀ limit, .nestingTooDeep limit ∉ errors) →
        errors.count (.noExpression .illegal) = (tokens.map Token.kind).count .illegal) := by
  induction hcharges with
  | nil => exact ⟨Nat.le_refl 0, fun _ => rfl⟩
  | free hkind _ ih =>
      rw [List.map_cons, List.count_cons_of_ne hkind]
      exact ih
  | @charged token error tokens errors haccounts _ ih =>
      rw [List.map_cons]
      -- An illegal token is charged with its own report or with nesting, and no other token is
      -- charged with such a report.
      by_cases hkind : token.kind = .illegal
      · rw [hkind, List.count_cons_self]
        rcases haccounts.of_illegal hkind with rfl | ⟨limit, rfl⟩
        · rw [List.count_cons_self]
          refine ⟨Nat.succ_le_succ ih.1, fun hnesting => congrArg Nat.succ (ih.2 ?_)⟩
          exact fun limit hmem => hnesting limit (List.mem_cons_of_mem _ hmem)
        · rw [List.count_cons_of_ne SyntaxError.noConfusion]
          exact ⟨Nat.le_succ_of_le ih.1, fun hnesting => absurd List.mem_cons_self (hnesting limit)⟩
      · have hother : error ≠ .noExpression .illegal := by
          rintro rfl
          exact hkind haccounts
        rw [List.count_cons_of_ne hother, List.count_cons_of_ne hkind]
        exact ⟨ih.1, fun hnesting => ih.2 fun limit hmem =>
          hnesting limit (List.mem_cons_of_mem _ hmem)⟩
  | perm _ hperm ih =>
      rw [← hperm.count_eq]
      exact ⟨ih.1, fun hnesting => ih.2 fun limit hmem => hnesting limit (hperm.mem_iff.1 hmem)⟩

/-- Between two points of reading, of the tokens that were due some are left, and the errors that
were recorded are charged to the others. -/
def Covers (due left : List Token) (earlier later : List SyntaxError) : Prop :=
  ∃ passed added, due = passed ++ left ∧ later = earlier ++ added ∧ Charges passed added

namespace Covers

variable {due middle left : List Token} {earlier between later : List SyntaxError} {token : Token}
  {error : SyntaxError}

theorem refl (due : List Token) (errors : List SyntaxError) : Covers due due errors errors :=
  ⟨[], [], rfl, (List.append_nil errors).symm, .nil⟩

theorem trans (hfirst : Covers due middle earlier between)
    (hsecond : Covers middle left between later) : Covers due left earlier later := by
  obtain ⟨passed, added, rfl, rfl, hcharges⟩ := hfirst
  obtain ⟨others, more, rfl, rfl, hmore⟩ := hsecond
  exact ⟨passed ++ others, added ++ more, (List.append_assoc _ _ _).symm, List.append_assoc _ _ _,
    hcharges.append hmore⟩

/-- A token that opens what is due and misses nothing. -/
theorem cons_free (hkind : token.kind ≠ .illegal) (hcovers : Covers due left earlier later) :
    Covers (token :: due) left earlier later := by
  obtain ⟨passed, added, rfl, hadded, hcharges⟩ := hcovers
  exact ⟨token :: passed, added, rfl, hadded, .free hkind hcharges⟩

/-- A token that opens what is due, charged with what is found missing last. -/
theorem cons_charged (haccounts : token.AccountsFor error)
    (hcovers : Covers due left earlier later) :
    Covers (token :: due) left earlier (later ++ [error]) := by
  obtain ⟨passed, added, rfl, rfl, hcharges⟩ := hcovers
  exact ⟨token :: passed, added ++ [error], rfl, List.append_assoc _ _ _,
    hcharges.cons_concat haccounts⟩

/-- A token that is passed over. -/
theorem pass (hkind : token.kind ≠ .illegal) (hcovers : Covers due (token :: left) earlier later) :
    Covers due left earlier later :=
  hcovers.trans ((refl left later).cons_free hkind)

end Covers

namespace Parser

variable {σ : Type} [TokenSupply σ]

/-- All up to the current token is settled: of what was due just the tokens behind the current one
are left, the end of input among them unless it is current. -/
def Settled (state : Parser σ) (limit room : Nat) (due : List Token) (errors : List SyntaxError) :
    Prop :=
  ∃ tokens, state.Reads limit room tokens ∧
    Covers due (tokens ++ [Token.endOfInput]).tail errors state.errors.toList

/-- All in front of the current token is settled.  The end of input may be settled even where it is
current. -/
def Awaited (state : Parser σ) (limit room : Nat) (due : List Token) (errors : List SyntaxError) :
    Prop :=
  ∃ tokens left, state.Reads limit room tokens ∧ Covers due left errors state.errors.toList ∧
    (left = tokens ++ [Token.endOfInput] ∨ tokens = [] ∧ left = [])

namespace Settled

variable {state : Parser σ} {limit room : Nat} {due tokens : List Token} {token : Token}
  {errors : List SyntaxError} {error : SyntaxError}

/-- Once a token is settled, what is behind it is due. -/
theorem of_reads (hreads : state.Reads limit room (token :: tokens)) :
    state.Settled limit room (tokens ++ [.endOfInput]) state.errors.toList :=
  ⟨token :: tokens, hreads, .refl _ _⟩

/-- A token that misses nothing. -/
theorem opening (hkind : token.kind ≠ .illegal) (hsettled : state.Settled limit room due errors) :
    state.Settled limit room (token :: due) errors := by
  obtain ⟨tokens, hreads, hcovers⟩ := hsettled
  exact ⟨tokens, hreads, hcovers.cons_free hkind⟩

/-- What is missing behind a token is charged to it. -/
theorem record (hsettled : state.Settled limit room due errors)
    (haccounts : token.AccountsFor error) :
    (state.record error).Settled limit room (token :: due) errors := by
  obtain ⟨tokens, hreads, hcovers⟩ := hsettled
  refine ⟨tokens, hreads.record error, ?_⟩
  rw [record_errors]
  exact hcovers.cons_charged haccounts

/-- What is wrong with the current token is charged to it. -/
theorem record_current (hreads : state.Reads limit room tokens)
    (haccounts : state.current.AccountsFor error) :
    (state.record error).Settled limit room (tokens ++ [.endOfInput]) state.errors.toList := by
  rw [hreads.append_endOfInput]
  exact record ⟨tokens, hreads, .refl _ _⟩ haccounts

/-- A lookahead of a known kind is the first of what is due. -/
theorem exists_peek (hsettled : state.Settled limit room due errors) {kind : TokenKind}
    (hpeek : state.peek.kind = kind) (hend : kind ≠ .eof) :
    ∃ rest, state.advance.Reads limit room (state.peek :: rest) ∧
      Covers due (state.peek :: (rest ++ [.endOfInput])) errors state.advance.errors.toList := by
  obtain ⟨tokens, hreads, hcovers⟩ := hsettled
  obtain ⟨rest, hrest⟩ := hreads.advance_tail.exists_peek hpeek hend
  obtain _ | ⟨first, later⟩ := tokens
  · contradiction
  · obtain rfl : later = state.peek :: rest := hrest
    exact ⟨rest, hreads.advance, hcovers⟩

theorem current_kind_ne_eof (hsettled : state.Settled limit room due errors) {kind : TokenKind}
    (hpeek : state.peek.kind = kind) (hend : kind ≠ .eof) : state.current.kind ≠ .eof := by
  obtain ⟨tokens, hreads, -⟩ := hsettled
  obtain _ | ⟨first, later⟩ := tokens
  · have hlast := hreads.peek_eq
    rw [hlast] at hpeek
    exact absurd hpeek.symm hend
  · exact hreads.kind_ne_eof

/-- A lookahead that is part of the language is settled when the parser moves on to it. -/
theorem advance (hsettled : state.Settled limit room due errors) {kind : TokenKind}
    (hpeek : state.peek.kind = kind) (hend : kind ≠ .eof) (hlegal : kind ≠ .illegal) :
    state.advance.Settled limit room due errors ∧ state.advance.current.kind ≠ .eof := by
  obtain ⟨rest, hreads, hcovers⟩ := hsettled.exists_peek hpeek hend
  exact ⟨⟨_, hreads, hcovers.pass (by rwa [hpeek])⟩, hreads.kind_ne_eof⟩

/-- Behind the current token all that is left is due, if it is not the end of input. -/
theorem advance_reads (hsettled : state.Settled limit room due errors)
    (hcurrent : state.current.kind ≠ .eof) :
    ∃ rest, state.advance.Reads limit room rest ∧
      Covers due (rest ++ [.endOfInput]) errors state.advance.errors.toList := by
  obtain ⟨tokens, hreads, hcovers⟩ := hsettled
  obtain ⟨rest, rfl⟩ := hreads.exists_cons hcurrent
  exact ⟨rest, hreads.advance, hcovers⟩

theorem advance_awaited (hsettled : state.Settled limit room due errors) :
    state.advance.Awaited limit room due errors := by
  obtain ⟨tokens, hreads, hcovers⟩ := hsettled
  refine ⟨tokens.tail, _, hreads.advance_tail, hcovers, ?_⟩
  cases tokens with
  | nil => exact Or.inr ⟨rfl, rfl⟩
  | cons token rest => exact Or.inl rfl

end Settled

end Parser

/-- An action settles what is due, whether or not it answers. -/
def Settles {σ α : Type} [TokenSupply σ] (action : ParseM σ α) (state : Parser σ)
    (limit room : Nat) (due : List Token) (errors : List SyntaxError) : Prop :=
  Ensures (fun _ => False) action state (fun _ after => after.Settled limit room due errors)
    fun after => after.Settled limit room due errors

/-- Expressions of any power settle all tokens from the current one on that they use up. -/
def SettlesExpressions (σ : Type) [TokenSupply σ] (limit room : Nat) : Prop :=
  ∀ {power : Power} {state : Parser σ} {tokens : List Token}, state.Reads limit room tokens →
    Settles (expression power) state limit room (tokens ++ [.endOfInput]) state.errors.toList

namespace Settles

open ExprLang.Parser

variable {σ : Type} [TokenSupply σ] {limit room : Nat} {state : Parser σ} {token : Token}
  {due tokens : List Token} {errors : List SyntaxError}

/-- Settling what is left of what is due. -/
theorem trans {α : Type} {action : ParseM σ α} {left : List Token} {between : List SyntaxError}
    (hcovers : Covers due left errors between)
    (haction : Settles action state limit room left between) :
    Settles action state limit room due errors := by
  refine haction.mono ?_ ?_
  · rintro value after ⟨tokens, hreads, hlater⟩
    exact ⟨tokens, hreads, hcovers.trans hlater⟩
  · rintro after ⟨tokens, hreads, hlater⟩
    exact ⟨tokens, hreads, hcovers.trans hlater⟩

/-- A token in front of what is due that misses nothing. -/
theorem opening {α : Type} {action : ParseM σ α} (hkind : token.kind ≠ .illegal)
    (haction : Settles action state limit room due errors) :
    Settles action state limit room (token :: due) errors :=
  haction.mono (fun _ _ hsettled => hsettled.opening hkind) fun _ hsettled => hsettled.opening hkind

/-- A token that has to come next, followed by what comes behind it.  Where it is missing that is
charged to a token in front of what is due. -/
theorem expect_bind {β : Type} {kind : TokenKind} {next : Unit → ParseM σ β}
    {final : β → Parser σ → Prop} (hdemand : kind ∈ token.kind.demands)
    (hsettled : state.Settled limit room due errors)
    (hnext : state.peek.kind = kind → state.advance.Settled limit room due errors →
      state.advance.current.kind ≠ .eof →
      Ensures (fun _ => False) (next ()) state.advance final
        fun after => after.Settled limit room (token :: due) errors) :
    Ensures (fun _ => False) (expect kind >>= next) state final
      fun after => after.Settled limit room (token :: due) errors := by
  obtain ⟨hend, hlegal⟩ := TokenKind.ne_of_mem_demands hdemand
  refine Ensures.expect_bind (fun hpeek => ?_) fun _ => Or.inr (hsettled.record hdemand)
  obtain ⟨hpast, hcurrent⟩ := hsettled.advance hpeek hend hlegal
  exact hnext hpeek hpast hcurrent

/-- An expression behind the current token. -/
theorem inner (hinner : SettlesExpressions σ limit room) {power : Power}
    (hsettled : state.Settled limit room due errors) (hcurrent : state.current.kind ≠ .eof) :
    Settles (expression power) state.advance limit room due errors := by
  obtain ⟨rest, hreads, hcovers⟩ := hsettled.advance_reads hcurrent
  exact trans hcovers (hinner hreads)

theorem ident (hreads : state.Reads limit room (token :: tokens))
    (hkind : token.kind = .identifier) :
    Settles Rule.ident state limit room (token :: (tokens ++ [.endOfInput]))
      state.errors.toList := by
  rw [Rule.ident]
  apply Ensures.inspect_bind
  apply Ensures.pure
  exact (Settled.of_reads hreads).opening (by rw [hkind]; decide)

theorem integer (hreads : state.Reads limit room (token :: tokens))
    (hkind : token.kind = .integer) :
    Settles Rule.integer state limit room (token :: (tokens ++ [.endOfInput]))
      state.errors.toList := by
  rw [Rule.integer]
  apply Ensures.inspect_bind
  rw [hreads.current_cons]
  cases readInteger? token.lexeme with
  | some value =>
      apply Ensures.pure
      exact (Settled.of_reads hreads).opening (by rw [hkind]; decide)
  | none =>
      apply Ensures.fail
      exact (Settled.of_reads hreads).record ⟨hkind, rfl⟩

theorem boolean (hreads : state.Reads limit room (token :: tokens))
    (hkind : token.kind = .kwTrue ∨ token.kind = .kwFalse) :
    Settles Rule.boolean state limit room (token :: (tokens ++ [.endOfInput]))
      state.errors.toList := by
  have hlegal : token.kind ≠ .illegal := by
    rcases hkind with hkind | hkind <;> (rw [hkind]; decide)
  rw [Rule.boolean]
  apply Ensures.inspect_bind
  exact Ensures.pure ((Settled.of_reads hreads).opening hlegal)

theorem unary (hinner : SettlesExpressions σ limit room)
    (hreads : state.Reads limit room (token :: tokens))
    (hkind : token.kind = .minus ∨ token.kind = .bang) :
    Settles (Rule.unary expression) state limit room (token :: (tokens ++ [.endOfInput]))
      state.errors.toList := by
  have hlegal : token.kind ≠ .illegal := by
    rcases hkind with hkind | hkind <;> (rw [hkind]; decide)
  rw [Rule.unary]
  apply Ensures.inspect_bind
  apply Ensures.advance_bind
  exact Ensures.bind_pure (opening hlegal (inner hinner (.of_reads hreads) hreads.kind_ne_eof))

theorem grouped (hinner : SettlesExpressions σ limit room)
    (hreads : state.Reads limit room (token :: tokens)) (hkind : token.kind = .openParen) :
    Settles (Rule.grouped expression) state limit room (token :: (tokens ++ [.endOfInput]))
      state.errors.toList := by
  have hclosing (expression : Option Expr) (after : Parser σ)
      (hsettled : after.Settled limit room (tokens ++ [.endOfInput]) state.errors.toList) :
      Settles (do
          expect .closeParen
          answer expression)
        after limit room (token :: (tokens ++ [.endOfInput])) state.errors.toList := by
    refine expect_bind (by rw [hkind]; decide) hsettled fun _ hpast _ => ?_
    have hdone : after.advance.Settled limit room (token :: (tokens ++ [.endOfInput]))
        state.errors.toList := hpast.opening (by rw [hkind]; decide)
    exact Ensures.answer (fun _ _ => hdone) fun _ => hdone
  rw [Rule.grouped]
  apply Ensures.advance_bind
  exact Ensures.attempt_bind (inner hinner (.of_reads hreads) hreads.kind_ne_eof)
    (fun value after hsettled => hclosing (some value) after hsettled) (hclosing none)

theorem skipSemicolon {gaveUp : Parser σ → Prop} (hsettled : state.Settled limit room due errors) :
    Ensures (fun _ => False) Rule.skipSemicolon state
      (fun _ after => after.Settled limit room due errors) gaveUp := by
  refine Or.inr ?_
  rw [Rule.skipSemicolon]
  dsimp only
  split
  · next hpeek =>
      rw [Parser.peekIs_iff] at hpeek
      exact (hsettled.advance hpeek (by decide) (by decide)).1
  · exact hsettled

/-- What ends every statement: an expression behind the current token, whether or not it is read,
and a semicolon. -/
theorem lastExpression (hinner : SettlesExpressions σ limit room) {result : Option Expr → Stmt}
    (hkind : token.kind ≠ .illegal) (hsettled : state.Settled limit room due errors)
    (hcurrent : state.current.kind ≠ .eof) :
    Settles (do
        advance
        let value ← attempt (expression .lowest)
        Rule.skipSemicolon
        pure (result value))
      state limit room (token :: due) errors := by
  have hend (value : Option Expr) (after : Parser σ)
      (hafter : after.Settled limit room due errors) :
      Settles (do
          Rule.skipSemicolon
          pure (result value))
        after limit room (token :: due) errors :=
    Ensures.bind_pure (opening hkind (skipSemicolon hafter))
  apply Ensures.advance_bind
  exact Ensures.attempt_bind (inner hinner hsettled hcurrent) (fun value => hend (some value))
    (hend none)

theorem binding (hinner : SettlesExpressions σ limit room)
    (hreads : state.Reads limit room (token :: tokens)) (hkind : token.kind = .kwLet) :
    Settles (Rule.binding expression) state limit room (token :: (tokens ++ [.endOfInput]))
      state.errors.toList := by
  rw [Rule.binding]
  apply Ensures.inspect_bind
  refine expect_bind (by rw [hkind]; decide) (.of_reads hreads) fun _ hname _ => ?_
  apply Ensures.inspect_bind
  refine expect_bind (by rw [hkind]; decide) hname fun _ hsign hcurrent => ?_
  exact lastExpression hinner (by rw [hkind]; decide) hsign hcurrent

theorem returning (hinner : SettlesExpressions σ limit room)
    (hreads : state.Reads limit room (token :: tokens)) (hkind : token.kind = .kwReturn) :
    Settles (Rule.returning expression) state limit room (token :: (tokens ++ [.endOfInput]))
      state.errors.toList := by
  rw [Rule.returning]
  apply Ensures.inspect_bind
  exact lastExpression hinner (by rw [hkind]; decide) (.of_reads hreads) hreads.kind_ne_eof

theorem expressionStatement (hinner : SettlesExpressions σ limit room)
    (hreads : state.Reads limit room tokens) :
    Settles (Rule.expressionStatement expression) state limit room (tokens ++ [.endOfInput])
      state.errors.toList := by
  have hend (first : Token) (value : Option Expr) (after : Parser σ)
      (hafter : after.Settled limit room (tokens ++ [.endOfInput]) state.errors.toList) :
      Settles (do
          Rule.skipSemicolon
          let expression ← answer value
          pure (Stmt.expression first expression))
        after limit room (tokens ++ [.endOfInput]) state.errors.toList := by
    refine Ensures.bind (skipSemicolon hafter) fun _ last hlast => ?_
    exact Ensures.bind_pure (Ensures.answer (fun _ _ => hlast) fun _ => hlast)
  rw [Rule.expressionStatement]
  apply Ensures.inspect_bind
  exact Ensures.attempt_bind (hinner hreads) (fun value => hend _ (some value)) (hend _ none)

theorem statement (hinner : SettlesExpressions σ limit room)
    (hreads : state.Reads limit room (token :: tokens)) :
    Settles (Rule.statement expression) state limit room (token :: (tokens ++ [.endOfInput]))
      state.errors.toList := by
  have hkind := Grammar.standard_statementRule_cases token.kind
  rw [Rule.statement]
  apply Ensures.inspect_bind
  rw [hreads.grammar, hreads.current_cons]
  cases hrule : (Grammar.standard.statementRule token.kind).getD .expression with
  | binding =>
      rw [hrule] at hkind
      exact binding hinner hreads hkind
  | returning =>
      rw [hrule] at hkind
      exact returning hinner hreads hkind
  | expression => exact expressionStatement hinner hreads

/-- One round of reading statements: a statement and the advance behind it. -/
theorem statement_awaited (hinner : SettlesExpressions σ limit room)
    (hcurrent : state.current.kind ≠ .eof) (hawaited : state.Awaited limit room due errors) :
    Ensures (fun _ => False) (Rule.statement expression) state
      (fun _ after => after.advance.Awaited limit room due errors)
      fun after => after.advance.Awaited limit room due errors := by
  obtain ⟨tokens, left, hreads, hcovers, hleft⟩ := hawaited
  obtain ⟨rest, rfl⟩ := hreads.exists_cons hcurrent
  obtain rfl : left = state.current :: (rest ++ [.endOfInput]) := by simpa using hleft
  refine (trans hcovers (statement hinner hreads)).mono ?_ ?_
  · exact fun _ after hsettled => hsettled.advance_awaited
  · exact fun after hsettled => hsettled.advance_awaited

theorem block (hinner : SettlesExpressions σ limit room)
    (hreads : state.Reads limit room (token :: tokens)) (hkind : token.kind = .openCurly) :
    Settles (always (Rule.block expression)) state limit room (token :: (tokens ++ [.endOfInput]))
      state.errors.toList := by
  refine Ensures.block
    (fun after => after.Awaited limit room (tokens ++ [.endOfInput]) state.errors.toList)
    (Settled.of_reads hreads).advance_awaited (fun state _ => statement_awaited hinner) ?_ ?_
  · rintro tree after hclosing ⟨rest, left, hafter, hcovers, hleft⟩
    obtain ⟨rest, rfl⟩ := hafter.exists_cons (by rw [hclosing]; decide)
    obtain rfl : left = after.current :: (rest ++ [.endOfInput]) := by simpa using hleft
    have hpast : after.Settled limit room (tokens ++ [.endOfInput]) state.errors.toList :=
      ⟨_, hafter, hcovers.pass (by rw [hclosing]; decide)⟩
    exact hpast.opening (by rw [hkind]; decide)
  -- The end of input may have been settled already, by what was read last in the block.
  · rintro tree after heof ⟨rest, left, hafter, hcovers, hleft⟩
    obtain rfl := hafter.current_kind_eq_eof_iff.1 heof
    have hpast : after.Settled limit room (tokens ++ [.endOfInput]) state.errors.toList := by
      refine ⟨[], hafter, ?_⟩
      rcases hleft with rfl | ⟨-, rfl⟩
      · exact hcovers.pass (by decide)
      · exact hcovers
    exact Or.inr (hpast.record (by rw [Token.AccountsFor, hkind]; decide))

/-- A block whose opening brace is the lookahead. -/
theorem nextBlock (hinner : SettlesExpressions σ limit room)
    (hsettled : state.Settled limit room due errors) (hpeek : state.peek.kind = .openCurly) :
    Settles (always (Rule.block expression)) state.advance limit room due errors := by
  obtain ⟨rest, hreads, hcovers⟩ := hsettled.exists_peek hpeek (by decide)
  exact trans hcovers (block hinner hreads hpeek)

/-- The other arm of a conditional.  A missing brace is charged to the keyword in front. -/
theorem alternative (hinner : SettlesExpressions σ limit room) (hkind : token.kind = .kwIf)
    (hsettled : state.Settled limit room due errors) :
    Ensures (fun _ => False) (Rule.alternative expression) state
      (fun _ after => after.Settled limit room due errors)
      fun after => after.Settled limit room (token :: due) errors := by
  rw [Rule.alternative]
  apply Ensures.inspect_bind
  by_cases hpeek : state.peekIs .kwElse = true
  · rw [if_pos hpeek]
    have hsettled := (hsettled.advance (Parser.peekIs_iff.1 hpeek) (by decide) (by decide)).1
    apply Ensures.advance_bind
    refine expect_bind (by rw [hkind]; decide) hsettled fun hcurly _ _ => ?_
    refine Ensures.bind_pure (Ensures.weaken (nextBlock hinner hsettled hcurly) ?_)
    exact fun _ hstop => hstop.opening (by rw [hkind]; decide)
  · rw [if_neg hpeek]
    exact Ensures.pure hsettled

theorem conditional (hinner : SettlesExpressions σ limit room)
    (hreads : state.Reads limit room (token :: tokens)) (hkind : token.kind = .kwIf) :
    Settles (Rule.conditional expression) state limit room (token :: (tokens ++ [.endOfInput]))
      state.errors.toList := by
  have hlegal : token.kind ≠ .illegal := by
    rw [hkind]
    decide
  have harms (condition : Option Expr) (after : Parser σ)
      (hsettled : after.Settled limit room (tokens ++ [.endOfInput]) state.errors.toList) :
      Settles (do
          expect .closeParen
          expect .openCurly
          let consequent ← always (Rule.block expression)
          let other ← Rule.alternative expression
          let condition ← answer condition
          pure (Expr.conditional state.current condition consequent other))
        after limit room (token :: (tokens ++ [.endOfInput])) state.errors.toList := by
    refine expect_bind (by rw [hkind]; decide) hsettled fun _ hclosing _ => ?_
    refine expect_bind (by rw [hkind]; decide) hclosing fun hcurly _ _ => ?_
    refine Ensures.bind (Ensures.weaken (nextBlock hinner hclosing hcurly)
      fun _ hstop => hstop.opening hlegal) fun consequent last hlast => ?_
    refine Ensures.bind (alternative hinner hkind hlast) fun other final hfinal => ?_
    have hdone := hfinal.opening hlegal
    exact Ensures.bind_pure (Ensures.answer (fun _ _ => hdone) fun _ => hdone)
  rw [Rule.conditional]
  apply Ensures.inspect_bind
  refine expect_bind (by rw [hkind]; decide) (.of_reads hreads) fun _ hopening hcurrent => ?_
  apply Ensures.advance_bind
  exact Ensures.attempt_bind (inner hinner hopening hcurrent)
    (fun condition => harms (some condition)) (harms none)

/-- A name that has to come next.  Where it is missing that is charged to the keyword in front. -/
theorem nextIdent (hkind : token.kind = .kwFn) (hsettled : state.Settled limit room due errors) :
    Ensures (fun _ => False) Rule.nextIdent state
      (fun _ after => after.Settled limit room due errors)
      fun after => after.Settled limit room (token :: due) errors := by
  rw [Rule.nextIdent]
  exact expect_bind (by rw [hkind]; decide) hsettled fun _ hname _ => Or.inr hname

/-- Parts with commas between them, from that of each part.  A missing parenthesis is charged to the
token in front. -/
theorem listOf {α : Type} {part : ParseM σ α} [Keeps Parser.Precedes part]
    (hdemand : .closeParen ∈ token.kind.demands)
    (hpart : ∀ state : Parser σ, state.Settled limit room due errors → state.current.kind ≠ .eof →
      Ensures (fun _ => False) part state (fun _ after => after.Settled limit room due errors)
        fun after => after.Settled limit room (token :: due) errors)
    (hsettled : state.Settled limit room due errors) (hcurrent : state.current.kind ≠ .eof) :
    Ensures (fun _ => False) (Rule.listOf part) state
      (fun _ after => after.Settled limit room due errors)
      fun after => after.Settled limit room (token :: due) errors := by
  refine Ensures.listOf (fun _ after => after.Settled limit room due errors) (fun hpeek => ?_)
    (fun _ => hpart state hsettled hcurrent) (fun found after hcomma hafter => ?_)
    fun found after _ hafter => ?_
  · exact (hsettled.advance hpeek (by decide) (by decide)).1
  · obtain ⟨hpast, hcurrent⟩ := hafter.advance hcomma (by decide) (by decide)
    exact ⟨hafter.current_kind_ne_eof hcomma (by decide), hpart after.advance hpast hcurrent⟩
  · exact expect_bind hdemand hafter fun _ hclosing _ => Ensures.pure hclosing

theorem function (hinner : SettlesExpressions σ limit room)
    (hreads : state.Reads limit room (token :: tokens)) (hkind : token.kind = .kwFn) :
    Settles (Rule.function expression) state limit room (token :: (tokens ++ [.endOfInput]))
      state.errors.toList := by
  rw [Rule.function]
  apply Ensures.inspect_bind
  refine expect_bind (by rw [hkind]; decide) (.of_reads hreads) fun _ hopening hcurrent => ?_
  have hnames := listOf (by rw [hkind]; decide)
    (fun _ hsettled _ => nextIdent hkind hsettled) hopening hcurrent
  refine Ensures.bind hnames fun names after hafter => ?_
  refine expect_bind (by rw [hkind]; decide) hafter fun hcurly _ _ => ?_
  exact Ensures.bind_pure (opening (by rw [hkind]; decide) (nextBlock hinner hafter hcurly))

/-- A call, in front of which stands the parenthesis that opens it. -/
theorem call (hinner : SettlesExpressions σ limit room) (callee : Expr)
    (hreads : state.Reads limit room (token :: tokens)) (hkind : token.kind = .openParen) :
    Settles (Rule.call expression callee) state limit room (token :: (tokens ++ [.endOfInput]))
      state.errors.toList := by
  have hlegal : token.kind ≠ .illegal := by
    rw [hkind]
    decide
  have hargument (before : Parser σ)
      (hsettled : before.Settled limit room (tokens ++ [.endOfInput]) state.errors.toList)
      (hcurrent : before.current.kind ≠ .eof) :
      Ensures (fun _ => False) (Rule.argument expression) before
        (fun _ after => after.Settled limit room (tokens ++ [.endOfInput]) state.errors.toList)
        fun after => after.Settled limit room (token :: (tokens ++ [.endOfInput]))
          state.errors.toList :=
    Ensures.advance_bind
      (Ensures.weaken (inner hinner hsettled hcurrent) fun _ hstop => hstop.opening hlegal)
  rw [Rule.call]
  apply Ensures.inspect_bind
  refine Ensures.bind_pure ?_
  exact (listOf (by rw [hkind]; decide) hargument (.of_reads hreads) hreads.kind_ne_eof).mono
    (fun _ _ hdone => hdone.opening hlegal) fun _ hstop => hstop

theorem binary (hinner : SettlesExpressions σ limit room) (left : Expr)
    (hsettled : state.Settled limit room due errors) (hcurrent : state.current.kind ≠ .eof) :
    Settles (Rule.binary expression left) state limit room due errors := by
  rw [Rule.binary]
  apply Ensures.inspect_bind
  apply Ensures.inspect_bind
  apply Ensures.advance_bind
  exact Ensures.bind_pure (inner hinner hsettled hcurrent)

theorem absorb (hinner : SettlesExpressions σ limit room) (power : Power) (left : Expr)
    (hsettled : state.Settled limit room due errors) :
    Settles (Rule.absorb expression power left) state limit room due errors := by
  refine Ensures.mono (Ensures.absorb (fun after => after.Settled limit room due errors) hsettled
    ?_ ?_ ?_) (fun _ _ hlast => hlast.2) fun _ hstop => hstop
  · rintro state ⟨tokens, hreads, -⟩
    exact hreads.grammar
  · exact fun state hsettled hpeek => hsettled.current_kind_ne_eof rfl hpeek
  · intro left state strength rule hsettled hoperator _ hpeek
    rcases Grammar.standard_operator_cases hoperator with ⟨level, hkind, -, rfl⟩ | ⟨hkind, -, rfl⟩
    · have hlegal : state.peek.kind ≠ .illegal := by
        intro hillegal
        rw [hillegal] at hoperator
        contradiction
      obtain ⟨hpast, hcurrent⟩ := hsettled.advance rfl hpeek hlegal
      exact binary hinner left hpast hcurrent
    · obtain ⟨rest, hreads, hcovers⟩ := hsettled.exists_peek hkind (by decide)
      exact trans hcovers (call hinner left hreads hkind)

theorem start (hinner : SettlesExpressions σ limit room) (hreads : state.Reads limit room tokens) :
    Settles (Rule.start expression) state limit room (tokens ++ [.endOfInput])
      state.errors.toList := by
  rw [Rule.start]
  apply Ensures.inspect_bind
  apply Ensures.inspect_bind
  rw [hreads.grammar]
  cases hrule : Grammar.standard.startRule state.current.kind with
  | none =>
      apply Ensures.fail
      exact Settled.record_current hreads rfl
  | some rule =>
      have hkind := Grammar.standard_startRule_cases hrule
      have hsome := Grammar.ne_eof_of_standard_startRule hrule
      obtain ⟨later, rfl⟩ := hreads.exists_cons hsome
      cases rule with
      | ident => exact ident hreads hkind
      | integer => exact integer hreads hkind
      | boolean => exact boolean hreads hkind
      | unary => exact unary hinner hreads hkind
      | grouped => exact grouped hinner hreads hkind
      | conditional => exact conditional hinner hreads hkind
      | function => exact function hinner hreads hkind

theorem body (hinner : SettlesExpressions σ limit room) (power : Power)
    (hreads : state.Reads limit room tokens) :
    Settles (Rule.body expression power) state limit room (tokens ++ [.endOfInput])
      state.errors.toList := by
  rw [Rule.body]
  exact Ensures.bind (start hinner hreads) fun left _ hafter => absorb hinner power left hafter

end Settles

/-- Expressions settle what they use up with any room for open ones. -/
theorem expression_settles (σ : Type) [TokenSupply σ] (limit room : Nat) :
    SettlesExpressions σ limit room := by
  induction room with
  | zero =>
      intro power state tokens hreads
      rw [expression_eq_nested]
      refine Ensures.nested (fun hopen => ?_) fun _ => Or.inr ?_
      · exact absurd hreads.depth_eq_limit (Nat.ne_of_lt hopen)
      · exact Parser.Settled.record_current hreads trivial
  | succ room ih =>
      intro power state tokens hreads
      have hopen := hreads.depth_lt_limit
      rw [expression_eq_nested]
      refine Ensures.nested (fun _ => ?_) fun hfull => absurd hopen hfull
      have hleave (inside : Parser σ)
          (hinside : state.enter.2.Precedes inside ∧
            inside.Settled limit room (tokens ++ [.endOfInput]) state.errors.toList) :
          inside.leave.Settled limit (room + 1) (tokens ++ [.endOfInput]) state.errors.toList := by
        obtain ⟨hlater, rest, hrest, hcovers⟩ := hinside
        exact ⟨rest, hreads.leave hlater hrest, hcovers⟩
      have hbody := (Settles.body ih power hreads.enter).precedes
      have herrors : state.enter.2.errors = state.errors := by
        simp only [Parser.enter, hopen, ↓reduceIte]
      rw [herrors] at hbody
      exact hbody.mono (fun _ inside => hleave inside) hleave

/-- The errors of a source are charged to its tokens, the end of input among them. -/
theorem parse_charges (source : String) : Charges (tokenize source) (parse source).2 := by
  have hreads := Parser.reads_ofSource source maxNesting
  obtain ⟨after, event, hfinal, hafter⟩ := Ensures.parseProgram
    (fun after => after.Awaited maxNesting maxNesting (tokenize source) [])
    ⟨_, _, hreads, .refl _ _, Or.inl (tokenize_eq_scanAll source)⟩
    fun state => Settles.statement_awaited (expression_settles Lexer maxNesting maxNesting)
  obtain ⟨heof, tokens, left, hreads, hcovers, hleft⟩ := hafter.resolve_left id
  obtain rfl := hreads.current_kind_eq_eof_iff.1 heof
  -- At the end of input nothing is left but the end of input.
  have hall : Covers (tokenize source) [] [] after.errors.toList := by
    rcases hleft with rfl | ⟨-, rfl⟩
    · exact hcovers.pass (by decide)
    · exact hcovers
  obtain ⟨passed, added, hpassed, hadded, hcharges⟩ := hall
  have herrors : (parse source).2 = added := (parse_errors_eq hfinal).trans hadded
  rw [herrors, hpassed, List.append_nil]
  exact hcharges

/-- There are no more errors than tokens, the end of input among them. -/
theorem parse_errors_length_le (source : String) :
    (parse source).2.length ≤ (tokenize source).length :=
  (parse_charges source).length_le

/-- A source can have as many errors as tokens. -/
example : (parse "(").2.length = 2 ∧ (tokenize "(").length = 2 := by
  decide +kernel

/-- Illegal characters are reported each at most once, and each exactly once where nesting never
stands in the way.  A source that contains one has an error in any case. -/
theorem parse_reports_illegal (source : String) :
    ((∀ limit, .nestingTooDeep limit ∉ (parse source).2) →
        (parse source).2.count (.noExpression .illegal) =
          ((tokenize source).map Token.kind).count .illegal) ∧
      (parse source).2.count (.noExpression .illegal) ≤
        ((tokenize source).map Token.kind).count .illegal ∧
      ((∃ token ∈ tokenize source, token.kind = .illegal) → (parse source).2 ≠ []) := by
  obtain ⟨hmost, hexact⟩ := (parse_charges source).count_illegal
  refine ⟨hexact, hmost, ?_⟩
  rintro ⟨token, htoken, hkind⟩ hnone
  rw [hnone] at hexact
  have hcount := hexact fun _ => List.not_mem_nil
  have hpos : 0 < ((tokenize source).map Token.kind).count .illegal :=
    List.count_pos_iff.2 (List.mem_map.2 ⟨token, htoken, hkind⟩)
  rw [← hcount] at hpos
  exact Nat.lt_irrefl 0 hpos

/-- Illegal characters where a name and where a value was due are reported once each, the first of
them behind the error about the name. -/
example : (parse "let @ = #").2 = [.unexpectedToken .identifier .illegal, .noExpression .illegal,
    .noExpression .assign, .noExpression .illegal] := by
  decide +kernel

end ExprLang
