/-
The parser keeps to the prediction.  As long as no error is recorded, all tokens in front of the
current one fit, and the parser is about to read just what is due.  The first error is about a token
that does not fit behind those in front of it, or nesting stands in the way.
-/
import ExprLang.Proofs.Effect
import ExprLang.Proofs.Prediction
import ExprLang.Proofs.Reading

namespace ExprLang

open ParseM

namespace SyntaxError

/-- The kind of token that does not fit, where an error is about one. -/
def found? : SyntaxError → Option TokenKind
  | unexpectedToken _ found => some found
  | noExpression kind => some kind
  | badInteger _ => some .integer
  | nestingTooDeep _ => none

/-- How many tokens have been handed out behind the one that an error is about: none behind a token
that had to be another, and one, the lookahead, behind a token that no expression starts with or
that is the end of input within a block. -/
def lag : SyntaxError → Nat
  | unexpectedToken .closeCurly _ => 1
  | unexpectedToken _ _ => 0
  | _ => 1

end SyntaxError

/-- Tokens fit, and the next one fits exactly where it fits what is due. -/
def Predicts (before : List Token) (next : Token) (stack : List Due) : Prop :=
  ∃ reached, follow programDue before = some reached ∧ shift reached next = shift stack next

namespace Predicts

variable {before : List Token} {next : Token} {stack other : List Due}

theorem congr (hpredicts : Predicts before next stack)
    (hshift : shift stack next = shift other next) :
    Predicts before next other := by
  obtain ⟨reached, hreached, hsame⟩ := hpredicts
  exact ⟨reached, hreached, hsame.trans hshift⟩

theorem follow_concat (hpredicts : Predicts before next stack) :
    follow programDue (before ++ [next]) = shift stack next := by
  obtain ⟨reached, hreached, hsame⟩ := hpredicts
  rw [follow_append, hreached]
  exact (follow_singleton reached next).trans hsame

theorem concat (hpredicts : Predicts before next stack) (hshift : shift stack next = some other)
    (later : Token) : Predicts (before ++ [next]) later other :=
  ⟨other, hpredicts.follow_concat.trans hshift, rfl⟩

end Predicts

/-- At a place among tokens stands the first that does not fit, and it is of the kind that an error
tells. -/
def Misfit (tokens : List Token) (place : Nat) (error : SyntaxError) : Prop :=
  ∃ before token after reached, tokens = before ++ token :: after ∧ before.length = place ∧
    error.found? = some token.kind ∧ follow programDue before = some reached ∧
    follow programDue (before ++ [token]) = none

theorem Predicts.misfit {before : List Token} {next : Token} {stack : List Due}
    (hpredicts : Predicts before next stack) (hshift : shift stack next = none)
    {error : SyntaxError} (hfound : error.found? = some next.kind) (after : List Token) :
    Misfit (before ++ next :: after) before.length error := by
  obtain ⟨reached, hreached, -⟩ := id hpredicts
  exact ⟨before, next, after, reached, rfl, rfl, hfound, hreached,
    hpredicts.follow_concat.trans hshift⟩

namespace Parser

variable {σ : Type}

/-- So many tokens have been handed out, and no error has been recorded. -/
def Quiet (state : Parser σ) (handed : Nat) : Prop :=
  state.errors.toList = [] ∧
    ∃ tokens : List Token, tokens.length = handed ∧ state.log.toList = tokens.map .pulled

/-- The first error was recorded when so many tokens had been handed out. -/
def Broken (state : Parser σ) (handed : Nat) (error : SyntaxError) : Prop :=
  [error] <+: state.errors.toList ∧ ∃ tokens : List Token, tokens.length = handed ∧
    tokens.map .pulled ++ [.recorded error] <+: state.log.toList

/-- The first error is about the first token that does not fit, or more expressions are open than
there may be, under a limit that is no greater than the number of tokens. -/
def Misses (tokens : List Token) (limit : Nat) (state : Parser σ) : Prop :=
  ∃ handed error, state.Broken handed error ∧
    (error.found? = none ∧ limit ≤ tokens.length ∨
      ∃ place, handed = place + 1 + error.lag ∧ Misfit (tokens ++ [.endOfInput]) place error)

theorem Quiet.record {state : Parser σ} {handed : Nat} (hquiet : state.Quiet handed)
    (error : SyntaxError) : (state.record error).Broken handed error := by
  obtain ⟨herrors, tokens, hhanded, hlog⟩ := hquiet
  refine ⟨?_, tokens, hhanded, ?_⟩
  · simp [Parser.record, herrors]
  · simp [Parser.record, hlog]

variable [TokenSupply σ]

theorem Quiet.advance {state : Parser σ} {handed : Nat} (hquiet : state.Quiet handed) :
    state.advance.Quiet (handed + 1) := by
  obtain ⟨herrors, tokens, hhanded, hlog⟩ := hquiet
  refine ⟨herrors, tokens ++ [(TokenSupply.pull state.supply).1], by simp [hhanded], ?_⟩
  simp [Parser.advance, hlog]

omit [TokenSupply σ] in
theorem Misses.extend {tokens : List Token} {limit : Nat} {earlier later : Parser σ}
    (hmisses : earlier.Misses tokens limit)
    (herrors : earlier.errors.toList <+: later.errors.toList)
    (hlog : earlier.log.toList <+: later.log.toList) : later.Misses tokens limit := by
  obtain ⟨handed, error, ⟨hfirst, pulled, hhanded, hreport⟩, hplace⟩ := hmisses
  exact ⟨handed, error, ⟨hfirst.trans herrors, pulled, hhanded, hreport.trans hlog⟩, hplace⟩

omit [TokenSupply σ] in
theorem Misses.record {tokens : List Token} {limit : Nat} {state : Parser σ} (error : SyntaxError)
    (hmisses : state.Misses tokens limit) : (state.record error).Misses tokens limit :=
  hmisses.extend (by simp) (by simp [Parser.record])

instance (tokens : List Token) (limit : Nat) : Irrevocable (Misses (σ := σ) tokens limit) where
  advance hmisses := hmisses.extend (List.prefix_refl _) (by simp [Parser.advance])
  record error hmisses := hmisses.record error
  stall hmisses := hmisses.extend (List.prefix_refl _) (List.prefix_refl _)
  enter {state} hmisses := by
    rw [enter]
    split
    · exact hmisses.extend (List.prefix_refl _) (List.prefix_refl _)
    · exact hmisses.record _
  leave hmisses := hmisses.extend (List.prefix_refl _) (List.prefix_refl _)

/-- From the current token on the parser is to read just what is due.  No more expressions are open
than there are tokens in front of the current one, up to a slack. -/
def Owes (state : Parser σ) (tokens : List Token) (limit room slack : Nat) (stack : List Due) :
    Prop :=
  ∃ before rest, tokens = before ++ rest ∧ state.Reads limit room rest ∧
    state.Quiet (before.length + 2) ∧ state.depth ≤ before.length + slack ∧
    Predicts before state.current stack

/-- Behind the current token the parser is to read just what is due. -/
def OwesBehind (state : Parser σ) (tokens : List Token) (limit room : Nat) (stack : List Due) :
    Prop :=
  ∃ before rest, tokens = before ++ rest ∧ state.advance.Reads limit room rest ∧
    state.Quiet (before.length + 1) ∧ state.depth ≤ before.length ∧
    state.current.kind ≠ .eof ∧ Predicts before state.peek stack

section Owing

variable {state : Parser σ} {tokens : List Token} {limit room slack : Nat} {due : Due}
  {stack other more : List Due}

theorem Owes.grammar (howes : state.Owes tokens limit room slack stack) :
    state.grammar = .standard := by
  obtain ⟨before, rest, -, hreads, -⟩ := howes
  exact hreads.grammar

theorem Owes.congr (howes : state.Owes tokens limit room slack stack)
    (hshift : shift stack state.current = shift other state.current) :
    state.Owes tokens limit room slack other := by
  obtain ⟨before, rest, htokens, hreads, hquiet, hdepth, hpredicts⟩ := howes
  exact ⟨before, rest, htokens, hreads, hquiet, hdepth, hpredicts.congr hshift⟩

/-- A current token that fits is taken up. -/
theorem Owes.behind (howes : state.Owes tokens limit room slack stack) (hslack : slack ≤ 1)
    (hcurrent : state.current.kind ≠ .eof) (hshift : shift stack state.current = some other) :
    state.OwesBehind tokens limit room other := by
  obtain ⟨before, rest, rfl, hreads, hquiet, hdepth, hpredicts⟩ := howes
  obtain ⟨later, rfl⟩ := hreads.exists_cons hcurrent
  have hlength : (before ++ [state.current]).length = before.length + 1 := by simp
  refine ⟨before ++ [state.current], later, by simp, hreads.advance, ?_, ?_, hcurrent,
    hpredicts.concat hshift state.peek⟩
  · rw [hlength]
    exact hquiet
  · rw [hlength]
    omega

/-- A current token that does not fit is what the first error is about. -/
theorem Owes.misses (howes : state.Owes tokens limit room slack stack) {error : SyntaxError}
    (hshift : shift stack state.current = none) (hfound : error.found? = some state.current.kind)
    (hlag : error.lag = 1) : (state.record error).Misses tokens limit := by
  obtain ⟨before, rest, rfl, hreads, hquiet, -, hpredicts⟩ := howes
  refine ⟨before.length + 2, error, hquiet.record error, Or.inr ⟨before.length, by rw [hlag], ?_⟩⟩
  rw [List.append_assoc, hreads.append_endOfInput]
  exact hpredicts.misfit hshift hfound _

theorem OwesBehind.congr (howes : state.OwesBehind tokens limit room stack)
    (hshift : shift stack state.peek = shift other state.peek) :
    state.OwesBehind tokens limit room other := by
  obtain ⟨before, rest, htokens, hreads, hquiet, hdepth, hcurrent, hpredicts⟩ := howes
  exact ⟨before, rest, htokens, hreads, hquiet, hdepth, hcurrent, hpredicts.congr hshift⟩

/-- What the lookahead does not belong to is left out where it may be. -/
theorem OwesBehind.skip (howes : state.OwesBehind tokens limit room (due :: stack))
    (htake : due.take state.peek = none) (hoptional : due.isOptional = true) :
    state.OwesBehind tokens limit room stack :=
  howes.congr (shift_of_optional htake hoptional)

theorem OwesBehind.current_kind_ne_eof (howes : state.OwesBehind tokens limit room stack) :
    state.current.kind ≠ .eof := by
  obtain ⟨before, rest, -, -, -, -, hcurrent, -⟩ := howes
  exact hcurrent

theorem OwesBehind.grammar (howes : state.OwesBehind tokens limit room stack) :
    state.grammar = .standard := by
  obtain ⟨before, rest, -, hreads, -⟩ := howes
  exact hreads.grammar

theorem OwesBehind.owes_advance (howes : state.OwesBehind tokens limit room stack) :
    state.advance.Owes tokens limit room 0 stack := by
  obtain ⟨before, rest, htokens, hreads, hquiet, hdepth, -, hpredicts⟩ := howes
  exact ⟨before, rest, htokens, hreads, hquiet.advance, hdepth, hpredicts⟩

/-- A lookahead that fits is taken up when the parser moves on to it. -/
theorem OwesBehind.advance (howes : state.OwesBehind tokens limit room (due :: stack))
    (hpeek : state.peek.kind ≠ .eof) (htake : due.take state.peek = some more) :
    state.advance.OwesBehind tokens limit room (more ++ stack) :=
  howes.owes_advance.behind (Nat.zero_le 1) hpeek (shift_of_take htake)

/-- A lookahead that does not fit is what the first error is about, if another token had to come
next. -/
theorem OwesBehind.misses (howes : state.OwesBehind tokens limit room stack) {kind : TokenKind}
    (hshift : shift stack state.peek = none) (hkind : kind ≠ .closeCurly) :
    (state.record (.unexpectedToken kind state.peek.kind)).Misses tokens limit := by
  obtain ⟨before, rest, rfl, hreads, hquiet, -, -, hpredicts⟩ := howes
  have hlag : (SyntaxError.unexpectedToken kind state.peek.kind).lag = 0 := by
    cases kind <;> first | rfl | contradiction
  refine ⟨before.length + 1, _, hquiet.record _, Or.inr ⟨before.length, by rw [hlag], ?_⟩⟩
  rw [List.append_assoc, hreads.append_endOfInput]
  exact hpredicts.misfit hshift rfl _

end Owing

end Parser

/-- From a parser, an action answers with nothing wrong so far and what is left due behind it, or
what is wrong first is a token that does not fit. -/
def Follows {σ α : Type} [TokenSupply σ] (action : ParseM σ α) (state : Parser σ)
    (tokens : List Token) (limit room : Nat) (stack : List Due) : Prop :=
  Ensures (Parser.Misses tokens limit) action state
    (fun _ after => after.OwesBehind tokens limit room stack) fun _ => False

/-- Expressions of any power are read where they are due. -/
def FollowsExpressions (σ : Type) [TokenSupply σ] (tokens : List Token) (limit room : Nat) : Prop :=
  ∀ {power : Power} {state : Parser σ} {stack : List Due},
    state.Owes tokens limit room 0 (.operand power :: stack) →
    Follows (expression power) state tokens limit room stack

namespace Follows

open ExprLang.Parser

variable {σ β : Type} [TokenSupply σ] {tokens : List Token} {limit room : Nat} {state : Parser σ}
  {stack : List Due}

/-- A token that has to come next, followed by what comes behind it. -/
theorem expect_bind {kind : TokenKind} {next : Unit → ParseM σ β} {final : β → Parser σ → Prop}
    (hkind : kind ∈ tokensDue) (howes : state.OwesBehind tokens limit room (.token kind :: stack))
    (hnext : state.peek.kind = kind → state.advance.OwesBehind tokens limit room stack →
      Ensures (Misses tokens limit) (next ()) state.advance final fun _ => False) :
    Ensures (Misses tokens limit) (expect kind >>= next) state final fun _ => False := by
  refine Ensures.expect_bind (fun hpeek => hnext hpeek ?_) fun hpeek => Or.inl ?_
  · have hend : kind ≠ .eof := by
      rintro rfl
      contradiction
    exact howes.advance (by rwa [hpeek]) (if_pos hpeek)
  · have hcurly : kind ≠ .closeCurly := by
      rintro rfl
      contradiction
    exact howes.misses (shift_token_of_ne hpeek) hcurly

/-- An expression behind the current token. -/
theorem inner (hinner : FollowsExpressions σ tokens limit room) {power : Power}
    (howes : state.OwesBehind tokens limit room (.operand power :: stack)) :
    Follows (expression power) state.advance tokens limit room stack :=
  hinner howes.owes_advance

theorem ident (howes : state.OwesBehind tokens limit room stack) :
    Follows Rule.ident state tokens limit room stack := by
  rw [Rule.ident]
  apply Ensures.inspect_bind
  exact Ensures.pure howes

theorem boolean (howes : state.OwesBehind tokens limit room stack) :
    Follows Rule.boolean state tokens limit room stack := by
  rw [Rule.boolean]
  apply Ensures.inspect_bind
  exact Ensures.pure howes

/-- A number that cannot be held does not fit. -/
theorem integer {power : Power} (hkind : state.current.kind = .integer)
    (howes : state.Owes tokens limit room 1 (.operand power :: stack)) :
    Follows Rule.integer state tokens limit room (.operators power :: stack) := by
  have hopens : state.current.opens? =
      if (readInteger? state.current.lexeme).isSome then some [] else none :=
    Token.opens?_of_startRule (by rw [hkind]; rfl : _ = some .integer)
  rw [Rule.integer]
  apply Ensures.inspect_bind
  cases hread : readInteger? state.current.lexeme with
  | some value =>
      rw [hread] at hopens
      apply Ensures.pure
      refine howes.behind (Nat.le_refl 1) (by rw [hkind]; decide) ?_
      rw [shift_operand, hopens]
      rfl
  | none =>
      rw [hread] at hopens
      have hshift : shift (.operand power :: stack) state.current = none := by
        rw [shift_operand, hopens]
        rfl
      have hfound : (SyntaxError.badInteger state.current.lexeme).found? =
          some state.current.kind := by
        rw [hkind]
        rfl
      exact Or.inl (howes.misses hshift hfound rfl)

theorem unary (hinner : FollowsExpressions σ tokens limit room)
    (howes : state.OwesBehind tokens limit room (.operand .unary :: stack)) :
    Follows (Rule.unary expression) state tokens limit room stack := by
  rw [Rule.unary]
  apply Ensures.inspect_bind
  apply Ensures.advance_bind
  exact Ensures.bind_pure (inner hinner howes)

theorem grouped (hinner : FollowsExpressions σ tokens limit room)
    (howes : state.OwesBehind tokens limit room
      (.operand .lowest :: .token .closeParen :: stack)) :
    Follows (Rule.grouped expression) state tokens limit room stack := by
  rw [Rule.grouped]
  apply Ensures.advance_bind
  refine Ensures.attempt_bind (inner hinner howes) (fun value after hafter => ?_)
    fun _ => False.elim
  refine expect_bind (by decide) hafter fun _ hlast => ?_
  exact Ensures.answer (fun _ _ => hlast) nofun

theorem skipSemicolon (howes : state.OwesBehind tokens limit room (.semicolon :: stack)) :
    Follows Rule.skipSemicolon state tokens limit room stack := by
  refine Or.inr ?_
  rw [Rule.skipSemicolon]
  dsimp only
  by_cases hpeek : state.peekIs .semicolon = true
  · rw [if_pos hpeek]
    rw [Parser.peekIs_iff] at hpeek
    exact howes.advance (by rw [hpeek]; decide) (if_pos hpeek)
  · rw [if_neg hpeek]
    rw [Parser.peekIs_iff] at hpeek
    exact howes.skip (if_neg hpeek) rfl

/-- What ends every statement: an expression behind the current token, and a semicolon. -/
theorem lastExpression (hinner : FollowsExpressions σ tokens limit room)
    {result : Option Expr → Stmt}
    (howes : state.OwesBehind tokens limit room (.operand .lowest :: .semicolon :: stack)) :
    Follows (do
        advance
        let value ← attempt (expression .lowest)
        Rule.skipSemicolon
        pure (result value))
      state tokens limit room stack := by
  apply Ensures.advance_bind
  refine Ensures.attempt_bind (inner hinner howes) (fun value after hafter => ?_)
    fun _ => False.elim
  exact Ensures.bind_pure (skipSemicolon hafter)

theorem binding (hinner : FollowsExpressions σ tokens limit room)
    (howes : state.OwesBehind tokens limit room
      (.token .identifier :: .token .assign :: .operand .lowest :: .semicolon :: stack)) :
    Follows (Rule.binding expression) state tokens limit room stack := by
  rw [Rule.binding]
  apply Ensures.inspect_bind
  refine expect_bind (by decide) howes fun _ hname => ?_
  apply Ensures.inspect_bind
  exact expect_bind (by decide) hname fun _ hsign => lastExpression hinner hsign

theorem returning (hinner : FollowsExpressions σ tokens limit room)
    (howes : state.OwesBehind tokens limit room (.operand .lowest :: .semicolon :: stack)) :
    Follows (Rule.returning expression) state tokens limit room stack := by
  rw [Rule.returning]
  apply Ensures.inspect_bind
  exact lastExpression hinner howes

theorem expressionStatement (hinner : FollowsExpressions σ tokens limit room)
    (howes : state.Owes tokens limit room 0 (.operand .lowest :: .semicolon :: stack)) :
    Follows (Rule.expressionStatement expression) state tokens limit room stack := by
  rw [Rule.expressionStatement]
  apply Ensures.inspect_bind
  refine Ensures.attempt_bind (hinner howes) (fun value after hafter => ?_) fun _ => False.elim
  refine Ensures.bind (skipSemicolon hafter) fun _ last hlast => ?_
  exact Ensures.bind_pure (Ensures.answer (fun _ _ => hlast) nofun)

/-- A statement that is due, where what would end the statements does not come instead. -/
theorem statement (hinner : FollowsExpressions σ tokens limit room) {last : TokenKind}
    (hcurrent : state.current.kind ≠ .eof) (hlast : state.current.kind ≠ last)
    (howes : state.Owes tokens limit room 0 (.statements last :: stack)) :
    Follows (Rule.statement expression) state tokens limit room (.statements last :: stack) := by
  have htake : (Due.statements last).take state.current =
      (((Grammar.standard.statementRule state.current.kind).getD .expression).opens?
        state.current).map fun more => more ++ [.statements last] :=
    if_neg hlast
  rw [Rule.statement]
  apply Ensures.inspect_bind
  rw [howes.grammar]
  cases hrule : (Grammar.standard.statementRule state.current.kind).getD .expression with
  | binding =>
      rw [hrule] at htake
      exact binding hinner (howes.behind (Nat.zero_le 1) hcurrent (shift_of_take htake))
  | returning =>
      rw [hrule] at htake
      exact returning hinner (howes.behind (Nat.zero_le 1) hcurrent (shift_of_take htake))
  | expression =>
      -- What is due then is an expression and what ends a statement.
      rw [hrule] at htake
      refine expressionStatement hinner (howes.congr ?_)
      rw [shift_operand, shift, htake, StatementRule.opens?]
      cases state.current.opens? with
      | none => rfl
      | some more => simp

theorem block (hinner : FollowsExpressions σ tokens limit room)
    (howes : state.OwesBehind tokens limit room (.statements .closeCurly :: stack)) :
    Follows (always (Rule.block expression)) state tokens limit room stack := by
  refine Ensures.block
    (fun after => after.Owes tokens limit room 0 (.statements .closeCurly :: stack))
    howes.owes_advance (fun state hcurly heof howes => ?_) ?_ ?_
  · exact (statement hinner heof hcurly howes).mono (fun _ _ hafter => hafter.owes_advance)
      fun _ => False.elim
  · intro tree after hcurly hafter
    have htake : (Due.statements .closeCurly).take after.current = some [] := if_pos hcurly
    exact hafter.behind (Nat.zero_le 1) (by rw [hcurly]; decide) (shift_of_take htake)
  · intro tree after heof hafter
    have htake : (Due.statements .closeCurly).take after.current = none := by
      have hopens : after.current.opens? = none :=
        Token.opens?_of_startRule_none (by rw [heof]; rfl)
      rw [Due.take, heof, if_neg (by decide)]
      show (after.current.opens?.map _).map _ = none
      rw [hopens]
      rfl
    exact Or.inl (hafter.misses (shift_of_not_optional htake rfl) (by rw [heof]; rfl) rfl)

theorem alternative (hinner : FollowsExpressions σ tokens limit room)
    (howes : state.OwesBehind tokens limit room (.otherwise :: stack)) :
    Follows (Rule.alternative expression) state tokens limit room stack := by
  rw [Rule.alternative]
  apply Ensures.inspect_bind
  by_cases hpeek : state.peekIs .kwElse = true
  · rw [if_pos hpeek]
    rw [Parser.peekIs_iff] at hpeek
    apply Ensures.advance_bind
    have hbehind := howes.advance (by rw [hpeek]; decide) (if_pos hpeek)
    refine expect_bind (by decide) hbehind fun _ hcurly => ?_
    exact Ensures.bind_pure (block hinner hcurly)
  · rw [if_neg hpeek]
    rw [Parser.peekIs_iff] at hpeek
    exact Ensures.pure (howes.skip (if_neg hpeek) rfl)

theorem conditional (hinner : FollowsExpressions σ tokens limit room)
    (howes : state.OwesBehind tokens limit room (.token .openParen :: .operand .lowest ::
      .token .closeParen :: .token .openCurly :: .statements .closeCurly :: .otherwise :: stack)) :
    Follows (Rule.conditional expression) state tokens limit room stack := by
  rw [Rule.conditional]
  apply Ensures.inspect_bind
  refine expect_bind (by decide) howes fun _ hopening => ?_
  apply Ensures.advance_bind
  refine Ensures.attempt_bind (inner hinner hopening) (fun condition after hafter => ?_)
    fun _ => False.elim
  refine expect_bind (by decide) hafter fun _ hclosing => ?_
  refine expect_bind (by decide) hclosing fun _ hcurly => ?_
  refine Ensures.bind (block hinner hcurly) fun consequent last hlast => ?_
  refine Ensures.bind (alternative hinner hlast) fun other final hfinal => ?_
  exact Ensures.bind_pure (Ensures.answer (fun _ _ => hfinal) nofun)

theorem nextIdent (howes : state.OwesBehind tokens limit room (.token .identifier :: stack)) :
    Follows Rule.nextIdent state tokens limit room stack := by
  rw [Rule.nextIdent]
  exact expect_bind (by decide) howes fun _ hname => Or.inr hname

/-- Parts with commas between them.  Behind each part `more` of them may follow, and a comma takes
that on to one more part. -/
theorem listOf {α : Type} {part : ParseM σ α} [Keeps (Loses (Misses tokens limit)) part]
    [Keeps Precedes part] (more : Due)
    (hempty : state.peek.kind = .closeParen →
      state.OwesBehind tokens limit room (.token .closeParen :: stack))
    (hfirst : state.peek.kind ≠ .closeParen →
      Follows part state tokens limit room (more :: .token .closeParen :: stack))
    (hnext : ∀ state : Parser σ, state.peek.kind = .comma →
      state.OwesBehind tokens limit room (more :: .token .closeParen :: stack) →
      Follows part state.advance tokens limit room (more :: .token .closeParen :: stack))
    (hdone : ∀ state : Parser σ, state.peek.kind ≠ .comma →
      state.OwesBehind tokens limit room (more :: .token .closeParen :: stack) →
      state.OwesBehind tokens limit room (.token .closeParen :: stack)) :
    Follows (Rule.listOf part) state tokens limit room stack := by
  refine Ensures.listOf
    (fun _ after => after.OwesBehind tokens limit room (more :: .token .closeParen :: stack))
    (fun hpeek => ?_) hfirst (fun _ after hcomma hafter => ?_) fun _ after hstop hafter => ?_
  · exact (hempty hpeek).advance (by rw [hpeek]; decide) (if_pos hpeek)
  · exact ⟨hafter.current_kind_ne_eof, hnext after hcomma hafter⟩
  · exact expect_bind (by decide) (hdone after hstop hafter) fun _ hclosing =>
      Ensures.pure hclosing

theorem parameters
    (howes : state.OwesBehind tokens limit room (.parameters :: .token .closeParen :: stack)) :
    Follows Rule.parameters state tokens limit room stack := by
  refine listOf .moreParameters (fun hpeek => ?_) (fun hpeek => nextIdent ?_)
    (fun after hcomma hafter => nextIdent ?_) fun after hstop hafter => ?_
  · exact howes.skip (if_neg (by rw [hpeek]; decide)) rfl
  -- Where there is no closing parenthesis, only a name fits.
  · refine howes.congr ?_
    by_cases hkind : state.peek.kind = .identifier
    · have htake : Due.parameters.take state.peek = some [.moreParameters] := if_pos hkind
      rw [shift_of_take htake, shift_token_of_eq hkind]
      rfl
    · have htake : Due.parameters.take state.peek = none := if_neg hkind
      rw [shift_of_optional htake rfl, shift_token_of_ne hpeek, shift_token_of_ne hkind]
  · exact hafter.advance (by rw [hcomma]; decide) (if_pos hcomma)
  · exact hafter.skip (if_neg hstop) rfl

theorem function (hinner : FollowsExpressions σ tokens limit room)
    (howes : state.OwesBehind tokens limit room (.token .openParen :: .parameters ::
      .token .closeParen :: .token .openCurly :: .statements .closeCurly :: stack)) :
    Follows (Rule.function expression) state tokens limit room stack := by
  rw [Rule.function]
  apply Ensures.inspect_bind
  refine expect_bind (by decide) howes fun _ hopening => ?_
  refine Ensures.bind (parameters hopening) fun names after hafter => ?_
  refine expect_bind (by decide) hafter fun _ hcurly => ?_
  exact Ensures.bind_pure (block hinner hcurly)

theorem arguments (hinner : FollowsExpressions σ tokens limit room)
    (howes : state.OwesBehind tokens limit room (.arguments :: .token .closeParen :: stack)) :
    Follows (Rule.arguments expression) state tokens limit room stack := by
  refine listOf .moreArguments (fun hpeek => ?_)
    (fun hpeek => Ensures.advance_bind (inner hinner ?_))
    (fun after hcomma hafter => Ensures.advance_bind (inner hinner ?_)) fun after hstop hafter => ?_
  · have htake : Due.arguments.take state.peek = none := by
      have hopens : state.peek.opens? = none :=
        Token.opens?_of_startRule_none (by rw [hpeek]; rfl)
      rw [Due.take, hopens]
      rfl
    exact howes.skip htake rfl
  -- Where there is no closing parenthesis, only an expression fits.
  · refine howes.congr ?_
    rw [shift_operand, shift, shift_token_of_ne hpeek, Due.take]
    cases state.peek.opens? with
    | none => rfl
    | some more => simp
  · exact hafter.advance (by rw [hcomma]; decide) (if_pos hcomma)
  · exact hafter.skip (if_neg hstop) rfl

theorem call (hinner : FollowsExpressions σ tokens limit room) (callee : Expr)
    (howes : state.OwesBehind tokens limit room (.arguments :: .token .closeParen :: stack)) :
    Follows (Rule.call expression callee) state tokens limit room stack := by
  rw [Rule.call]
  apply Ensures.inspect_bind
  exact Ensures.bind_pure (arguments hinner howes)

theorem binary (hinner : FollowsExpressions σ tokens limit room) (left : Expr)
    (howes : state.OwesBehind tokens limit room (.operand state.currentPower :: stack)) :
    Follows (Rule.binary expression left) state tokens limit room stack := by
  rw [Rule.binary]
  apply Ensures.inspect_bind
  apply Ensures.inspect_bind
  apply Ensures.advance_bind
  exact Ensures.bind_pure (inner hinner howes)

theorem absorb (hinner : FollowsExpressions σ tokens limit room) (power : Power) (left : Expr)
    (howes : state.OwesBehind tokens limit room (.operators power :: stack)) :
    Follows (Rule.absorb expression power left) state tokens limit room stack := by
  refine Ensures.mono (Ensures.absorb
    (fun after => after.OwesBehind tokens limit room (.operators power :: stack)) howes
    (fun _ howes => howes.grammar) (fun _ howes _ => howes.current_kind_ne_eof) ?_) ?_
    fun _ hstop => hstop
  · intro left state strength rule howes hoperator hpower hpeek
    have htake : (Due.operators power).take state.peek =
        some (rule.opens strength ++ [.operators power]) := by
      rw [Due.take, hoperator]
      exact if_pos hpower
    have hbehind := howes.advance hpeek htake
    cases rule with
    | binary =>
        have hcurrent : state.advance.currentPower = strength := by
          rw [Parser.currentPower, Parser.advance_current]
          show state.grammar.power state.peek.kind = strength
          rw [howes.grammar]
          exact Grammar.standard_power_of_operator hoperator
        rw [← hcurrent] at hbehind
        exact binary hinner left hbehind
    | call => exact call hinner left hbehind
  · rintro tree after ⟨hstop, hafter⟩
    refine hafter.skip (Due.take_operators_of_le ?_) rfl
    exact Rule.power_peek_le hafter.grammar hstop

theorem start (hinner : FollowsExpressions σ tokens limit room) {power : Power}
    (howes : state.Owes tokens limit room 1 (.operand power :: stack)) :
    Follows (Rule.start expression) state tokens limit room (.operators power :: stack) := by
  rw [Rule.start]
  apply Ensures.inspect_bind
  apply Ensures.inspect_bind
  rw [howes.grammar]
  cases hrule : Grammar.standard.startRule state.current.kind with
  | none =>
      have hshift : shift (.operand power :: stack) state.current = none := by
        rw [shift_operand, Token.opens?_of_startRule_none hrule]
        rfl
      exact Or.inl (howes.misses hshift rfl rfl)
  | some rule =>
      have hkind := Grammar.standard_startRule_cases hrule
      have hcurrent := Grammar.ne_eof_of_standard_startRule hrule
      have hbehind {more : List Due} (hopens : state.current.opens? = some more) :
          state.OwesBehind tokens limit room (more ++ .operators power :: stack) := by
        refine howes.behind (Nat.le_refl 1) hcurrent ?_
        rw [shift_operand, hopens]
        rfl
      have hopens := Token.opens?_of_startRule hrule
      cases rule with
      | ident => exact ident (hbehind hopens)
      | integer => exact integer hkind howes
      | boolean => exact boolean (hbehind hopens)
      | unary => exact unary hinner (hbehind hopens)
      | grouped => exact grouped hinner (hbehind hopens)
      | conditional => exact conditional hinner (hbehind hopens)
      | function => exact function hinner (hbehind hopens)

theorem body (hinner : FollowsExpressions σ tokens limit room) (power : Power)
    (howes : state.Owes tokens limit room 1 (.operand power :: stack)) :
    Follows (Rule.body expression power) state tokens limit room stack := by
  rw [Rule.body]
  exact Ensures.bind (start hinner howes) fun left _ hafter => absorb hinner power left hafter

end Follows

/-- Expressions are read where they are due, with any room for open ones. -/
theorem expression_follows (σ : Type) [TokenSupply σ] (tokens : List Token) (limit room : Nat) :
    FollowsExpressions σ tokens limit room := by
  induction room with
  | zero =>
      intro power state stack howes
      obtain ⟨before, rest, rfl, hreads, hquiet, hdepth, hpredicts⟩ := howes
      rw [expression_eq_nested]
      refine Ensures.nested (fun hopen => ?_) fun _ => Or.inl ?_
      · exact absurd hreads.depth_eq_limit (Nat.ne_of_lt hopen)
      · have hfew : limit ≤ (before ++ rest).length := by
          rw [← hreads.limit, ← hreads.depth_eq_limit, List.length_append]
          omega
        exact ⟨_, _, hquiet.record _, Or.inl ⟨rfl, hfew⟩⟩
  | succ room ih =>
      intro power state stack howes
      obtain ⟨before, rest, htokens, hreads, hquiet, hdepth, hpredicts⟩ := howes
      have hopen := hreads.depth_lt_limit
      -- The expression that is opened is one more than the tokens in front of it account for.
      have hinside : state.enter.2.Owes tokens limit room 1 (.operand power :: stack) := by
        have hreads := hreads.enter
        simp only [Parser.enter, hopen, ↓reduceIte] at hreads ⊢
        exact ⟨before, rest, htokens, hreads, hquiet, Nat.succ_le_succ hdepth, hpredicts⟩
      rw [expression_eq_nested]
      refine Ensures.nested (fun _ => ?_) fun hfull => absurd hopen hfull
      refine (Follows.body ih power hinside).precedes.mono ?_ fun _ hnever => hnever.2
      rintro tree inside ⟨hlater, before, rest, htokens, hbehind, hquiet, hdepth, hrest⟩
      exact ⟨before, rest, htokens, hreads.leave_advance hlater hbehind, hquiet,
        Nat.le_trans (Nat.sub_le _ 1) hdepth, hrest⟩

/-- All of a program is read with nothing wrong and all of its tokens fit, or what is wrong first is
a token that does not fit. -/
theorem parseProgram_follows {σ : Type} [TokenSupply σ] {state : Parser σ} {tokens : List Token}
    {limit : Nat} (hreads : state.Reads limit limit tokens) (hquiet : state.Quiet 2) :
    (parseProgram state).2.Misses tokens limit ∨
      (parseProgram state).2.errors.toList = [] ∧
        follow programDue (tokens ++ [.endOfInput]) = some [] := by
  have hstart : state.Owes tokens limit limit 0 programDue := by
    have hroom := hreads.room
    refine ⟨[], tokens, rfl, hreads, hquiet, ?_, programDue, rfl, rfl⟩
    rw [List.length_nil]
    omega
  obtain ⟨after, event, hfinal, hafter⟩ := Ensures.parseProgram
    (fun after => after.Owes tokens limit limit 0 programDue) hstart
    fun state hcurrent howes =>
      (Follows.statement (expression_follows σ tokens limit limit) hcurrent hcurrent howes).mono
        (fun _ _ hafter => hafter.owes_advance) fun _ => False.elim
  rw [hfinal]
  rcases hafter with hmisses | ⟨heof, before, rest, rfl, hreads, hquiet, -, hpredicts⟩
  · exact Or.inl (hmisses.extend (List.prefix_refl _) (by simp))
  · obtain rfl := hreads.current_kind_eq_eof_iff.1 heof
    have hcurrent : after.current = .endOfInput := hreads.faces.current
    refine Or.inr ⟨hquiet.1, ?_⟩
    rw [List.append_nil, ← hcurrent, hpredicts.follow_concat, hcurrent]
    rfl

end ExprLang
