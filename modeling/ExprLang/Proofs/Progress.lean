/-
No repetition of a parser is given up.  A parser over a lexer always has a list of tokens left, so
that it stands at the end of input only with the end of input in the lookahead; unless the end of
input is an operator, every round of a repetition then moves on from a token.
-/
import ExprLang.Proofs.Effect
import ExprLang.Proofs.Remaining

namespace ExprLang

variable {σ α : Type} [TokenSupply σ]

namespace Parser

/-- A parser whose repetitions all come to an end: it has a list of tokens left, the end of input is
no operator, and it has not stalled yet. -/
structure Unstalled (state : Parser σ) : Prop where
  left : ∃ tokens, state.HasLeft tokens
  ends : state.grammar.operator .eof = none
  unstalled : state.stalled = false

/-- Only the place, the grammar and the repetitions given up count. -/
theorem Unstalled.congr {state other : Parser σ} (hstate : state.Unstalled)
    (hplace : state.SamePlace other) (hgrammar : other.grammar = state.grammar)
    (hstalled : other.stalled = state.stalled) : other.Unstalled where
  left := by
    obtain ⟨tokens, hleft⟩ := hstate.left
    exact ⟨tokens, hleft.congr hplace⟩
  ends := hgrammar ▸ hstate.ends
  unstalled := hstalled.trans hstate.unstalled

theorem Unstalled.current_kind_ne_eof {state : Parser σ} (hstate : state.Unstalled)
    (hpeek : state.peek.kind ≠ .eof) : state.current.kind ≠ .eof := by
  obtain ⟨tokens, hleft⟩ := hstate.left
  exact hleft.current_kind_ne_eof hpeek

/-- The later parser is nearer to the end of input and has not stalled on the way there. -/
structure Steady (earlier later : Parser σ) : Prop where
  nears : earlier.Nears later
  unstalled : earlier.Unstalled → later.Unstalled

instance : Enduring (@Steady σ _) where
  refl state := ⟨Enduring.refl state, id⟩
  trans hfirst hsecond :=
    ⟨Enduring.trans hfirst.nears hsecond.nears, hsecond.unstalled ∘ hfirst.unstalled⟩
  advance state := by
    refine ⟨Enduring.advance state, fun hstate => ⟨?_, hstate.ends, hstate.unstalled⟩⟩
    obtain ⟨tokens, hleft⟩ := hstate.left
    exact ⟨tokens.tail, hleft.advance⟩
  record state error :=
    ⟨Enduring.record state error, fun hstate => hstate.congr ⟨rfl, rfl, rfl⟩ rfl rfl⟩
  nested {state inside} hroom hinside := by
    refine ⟨Enduring.nested hroom hinside.nears, fun hstate => ?_⟩
    have henter : state.enter.2.Unstalled := by
      simp only [enter, hroom, ↓reduceIte]
      exact hstate.congr ⟨rfl, rfl, rfl⟩ rfl rfl
    exact (hinside.unstalled henter).congr ⟨rfl, rfl, rfl⟩ rfl rfl

end Parser

open ExprLang.Parser

/-- A repetition each of whose steps leaves fewer tokens ahead is not given up. -/
theorem Keeps.improveWhile_steady {more : Parser σ → Bool} {step : α → ParseM σ α}
    [∀ value, Keeps Steady (step value)]
    (hless : ∀ value (state : Parser σ), more state = true → state.Unstalled →
      (step value state).2.ahead < state.ahead) (start : α) :
    Keeps Steady (ParseM.improveWhile more step start) := by
  refine Keeps.improveWhile_of_stalled (R := Steady)
    (fun {value better state after} hmore hstep hahead hkept => ?_) start
  refine ⟨Enduring.trans hkept.nears (Lasting.stall after), fun hstate => ?_⟩
  have hfewer := hless value state hmore hstate
  rw [hstep] at hfewer
  exact absurd hfewer hahead

/-- Where a lookahead that is not the end of input is moved on to first, fewer tokens are left
ahead. -/
theorem Parser.Unstalled.ahead_lt {state after : Parser σ} (hstate : state.Unstalled)
    (hpeek : state.peek.kind ≠ .eof) (hsteady : state.advance.Steady after) :
    after.ahead < state.ahead :=
  Nat.lt_of_le_of_lt hsteady.nears.ahead
    (Parser.ahead_advance_lt (hstate.current_kind_ne_eof hpeek))

/-- Where an expression goes on, taking the operator leaves fewer tokens ahead. -/
theorem Rule.ahead_extend_lt (inner : Power → ParseM σ Expr)
    [∀ left rule, Keeps Steady (Rule.operatorBy inner left rule)] {power : Power} {left : Expr}
    {state : Parser σ} (hmore : Rule.continues power state = true) (hstate : state.Unstalled) :
    (Rule.extend inner left state).2.ahead < state.ahead := by
  obtain ⟨strength, rule, hoperator⟩ := Rule.operator_of_continues hmore
  rw [Rule.extend_of_rule hoperator]
  refine hstate.ahead_lt (fun hend => ?_)
    (Keeps.after Steady (Rule.operatorBy inner left rule) state.advance)
  rw [hend, hstate.ends] at hoperator
  contradiction

instance : Repeating (@Steady σ _) where
  parts part _ found := by
    refine Keeps.improveWhile_steady (fun found state hcomma hstate => ?_) found
    refine hstate.ahead_lt (by rw [peekIs_iff.1 hcomma]; decide) ?_
    exact Keeps.after Steady (part >>= fun next => pure (found ++ [next])) state.advance
  operators inner _ _ left :=
    Keeps.improveWhile_steady (fun _ _ => Rule.ahead_extend_lt inner) left
  statements action _ hopen state :=
    Keeps.answersWhile_of_stalled (R := Steady) (fun hmore hahead hkept =>
      absurd (hkept.nears.ahead_advance_lt (hopen _ hmore)) hahead) state

namespace Parser.Worked

variable {state after : Parser σ}

theorem moves (hworked : state.Worked after) : state.Moves after := by
  cases hworked with
  | advance => exact Enduring.advance state
  | record error => exact Enduring.record state error
  | enter | leave | change => exact ⟨0, rfl, rfl, rfl⟩

theorem stalled_eq (hworked : state.Worked after) : after.stalled = state.stalled := by
  cases hworked <;> rfl

theorem operator_eq_none {kind : TokenKind} (hworked : state.Worked after)
    (hnone : after.grammar.operator kind = none) : state.grammar.operator kind = none := by
  cases hworked with
  | change grammar hkept => exact hkept kind hnone
  | advance | record | enter | leave => exact hnone

end Parser.Worked

namespace Operation

theorem run_precedes {operation : Operation} (hparses : operation.parses = true)
    (state : Parser σ) : state.Precedes (operation.run state).2 := by
  rw [← runWith_expression]
  exact keeps_runWith ExprLang.expression hparses
    (fun _ _ => ⟨List.prefix_refl _, Nat.le_refl _, rfl, rfl, rfl⟩) state

/-- An operation that reads part of a program gives up no repetition. -/
theorem run_unstalled {operation : Operation} (hparses : operation.parses = true)
    {state : Parser σ} (hstate : state.Unstalled) : (operation.run state).2.Unstalled := by
  have hfinish (count : Nat) (state : Parser σ) : state.Steady (state.finish count) :=
    ⟨⟨Nat.le_refl _, fun hopen hend => absurd hend hopen⟩,
      fun hstate => hstate.congr ⟨rfl, rfl, rfl⟩ rfl rfl⟩
  rw [← runWith_expression]
  exact (keeps_runWith ExprLang.expression hparses hfinish state).unstalled hstate

/-- Whatever the operation, a parser moves on in its supply. -/
theorem run_moves (operation : Operation) (state : Parser σ) :
    state.Moves (operation.run state).2 := by
  by_cases hparses : operation.parses = true
  · rw [← runWith_expression]
    exact keeps_runWith ExprLang.expression hparses (fun _ _ => ⟨0, rfl, rfl, rfl⟩) state
  · exact (run_worked hparses state).moves

/-- No operation takes an operator back. -/
theorem operator_eq_none_of_run {operation : Operation} {kind : TokenKind} {state : Parser σ}
    (hnone : (operation.run state).2.grammar.operator kind = none) :
    state.grammar.operator kind = none := by
  by_cases hparses : operation.parses = true
  · rwa [(run_precedes hparses state).grammar] at hnone
  · exact (run_worked hparses state).operator_eq_none hnone

end Operation

namespace Parser.Reachable

/-- A parser that operations lead to over a lexer has a list of tokens left. -/
theorem exists_hasLeft {state : Parser Lexer} (hreachable : state.Reachable) :
    ∃ tokens, state.HasLeft tokens := by
  induction hreachable with
  | new lexer => exact ⟨_, hasLeft_ofLexer lexer maxNesting⟩
  | run operation _ ih =>
      obtain ⟨tokens, hleft⟩ := ih
      exact hleft.exists_of_moves (operation.run_moves _)

/-- As long as the end of input is no operator, operations over a lexer never stall. -/
theorem unstalled {state : Parser Lexer} (hreachable : state.Reachable)
    (hends : state.grammar.operator .eof = none) : state.Unstalled := by
  refine ⟨hreachable.exists_hasLeft, hends, ?_⟩
  induction hreachable with
  | new lexer => rfl
  | @run operation state hreachable ih =>
      have hbefore := Operation.operator_eq_none_of_run hends
      by_cases hparses : operation.parses = true
      · exact (Operation.run_unstalled hparses
          ⟨hreachable.exists_hasLeft, hbefore, ih hbefore⟩).unstalled
      · rw [(Operation.run_worked hparses state).stalled_eq, ih hbefore]

end Parser.Reachable

end ExprLang
