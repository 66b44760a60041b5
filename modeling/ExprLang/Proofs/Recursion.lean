/-
Reading an expression in terms of itself.  The room for open expressions that the definition counts
down is always what the parser has left, so an expression is read by opening one more expression
and reading its start and its operators, with `expression` for everything inside.  The same holds of
other ways to open an expression, as long as there is room for as many.
-/
import ExprLang.Proofs.Lockstep

namespace ExprLang

variable {σ τ α β : Type} [TokenSupply σ] [TokenSupply τ]

namespace ParseM

theorem improveWhile_of_none {more : Parser σ → Bool} {step : α → ParseM σ α} {start : α}
    {state after : Parser σ} (hmore : more state = true)
    (hstep : step start state = (none, after)) :
    improveWhile more step start state = (none, after) := by
  rw [improveWhile, if_pos hmore, hstep]

theorem improveWhile_of_lt {more : Parser σ → Bool} {step : α → ParseM σ α} {start better : α}
    {state after : Parser σ} (hmore : more state = true)
    (hstep : step start state = (some better, after)) (hless : after.ahead < state.ahead) :
    improveWhile more step start state = improveWhile more step better after := by
  rw [improveWhile, if_pos hmore, hstep]
  dsimp only
  rw [if_pos hless]

theorem improveWhile_of_not_lt {more : Parser σ → Bool} {step : α → ParseM σ α} {start better : α}
    {state after : Parser σ} (hmore : more state = true)
    (hstep : step start state = (some better, after)) (hless : ¬ after.ahead < state.ahead) :
    improveWhile more step start state = (some better, { after with stalled := true }) := by
  rw [improveWhile, if_pos hmore, hstep]
  dsimp only
  rw [if_neg hless]

theorem answersWhile_of_lt {more : Parser σ → Bool} {action : ParseM σ α} {result : Option α}
    {state behind : Parser σ} (hmore : more state = true)
    (haction : action state = (result, behind))
    (hless : behind.advance.ahead < state.ahead) :
    answersWhile more action state =
      (result.toList ++ (answersWhile more action behind.advance).1,
        (answersWhile more action behind.advance).2) := by
  rw [answersWhile, if_pos hmore, haction]
  dsimp only
  rw [if_pos hless]

theorem answersWhile_of_not_lt {more : Parser σ → Bool} {action : ParseM σ α} {result : Option α}
    {state behind : Parser σ} (hmore : more state = true)
    (haction : action state = (result, behind))
    (hless : ¬ behind.advance.ahead < state.ahead) :
    answersWhile more action state =
      (result.toList, { behind.advance with stalled := true }) := by
  rw [answersWhile, if_pos hmore, haction]
  dsimp only
  rw [if_neg hless]

end ParseM

/-- The parser with one more expression open, whether or not there is room. -/
def Parser.opened (state : Parser σ) : Parser σ :=
  { state with depth := state.depth + 1, peak := max state.peak (state.depth + 1) }

/-- Runs an action as one more open expression.  There is always room. -/
def ParseM.opened (action : ParseM σ α) : ParseM σ α := fun state =>
  let (result, after) := action state.opened
  (result, after.leave)

omit [TokenSupply σ] in
theorem ParseM.opened_apply (action : ParseM σ α) (state : Parser σ) :
    opened action state = ((action state.opened).1, (action state.opened).2.leave) :=
  rfl

omit [TokenSupply σ] in
/-- Where there is room it makes no difference whether room is asked for. -/
theorem ParseM.nested_eq_opened (action : ParseM σ α) {state : Parser σ}
    (hopen : state.depth < state.limit) : nested action state = opened action state := by
  rw [nested, opened_apply]
  simp only [Parser.enter, hopen, ↓reduceIte]
  rfl

omit [TokenSupply σ] in
/-- Where there is no room the action is refused. -/
theorem ParseM.nested_eq_record (action : ParseM σ α) {state : Parser σ}
    (hfull : ¬ state.depth < state.limit) :
    nested action state = (none, state.record (.nestingTooDeep state.limit)) := by
  rw [nested]
  simp only [Parser.enter, hfull, ↓reduceIte]

/-- So many expressions are open, under a limit. -/
def Parser.Opens (depth limit : Nat) (state : Parser σ) : Prop :=
  state.depth = depth ∧ state.limit = limit

instance (depth limit : Nat) : Persistent (@Parser.Opens σ depth limit) where
  advance := id
  record _ := id
  stall := id

/-- A way to open an expression: what is read inside it is read with one more open than before, and
only where there is room. -/
class Deepens (wrap : ParseM σ Expr → ParseM σ Expr) : Prop where
  precedes (action : ParseM σ Expr) [Keeps Parser.Precedes action] :
    Keeps Parser.Precedes (wrap action)
  deeper {first second : ParseM σ Expr} {state : Parser σ} :
    (state.depth < state.limit → ∀ inside : Parser σ, inside.depth = state.depth + 1 →
      inside.limit = state.limit → first inside = second inside) →
    wrap first state = wrap second state

namespace Rule

/-- An expression of a given power with at most so many open inside one another, each opened by
`wrap`. -/
def within (wrap : ParseM σ Expr → ParseM σ Expr) : Nat → Power → ParseM σ Expr
  | 0, _ => wrap (ParseM.answer none)
  | room + 1, power => wrap (body (within wrap room) power)

theorem within_nested (room : Nat) :
    within (σ := σ) ParseM.nested room = expressionWithin room := by
  induction room with
  | zero => rfl
  | succ room ih =>
      funext power
      rw [within, expressionWithin, ih]

theorem keeps_within {R : Parser σ → Parser σ → Prop} [Lasting R]
    (wrap : ParseM σ Expr → ParseM σ Expr)
    (hwrap : ∀ action : ParseM σ Expr, Keeps R action → Keeps R (wrap action)) (room : Nat)
    (power : Power) : Keeps R (within wrap room power) := by
  induction room generalizing power with
  | zero => exact hwrap _ inferInstance
  | succ room ih => exact hwrap _ inferInstance

/-- An expression of a given power opened by `wrap`, as long as the parser has room. -/
def opening (wrap : ParseM σ Expr → ParseM σ Expr) (power : Power) : ParseM σ Expr := fun state =>
  within wrap (state.limit - state.depth) power state

theorem opening_nested : (opening (σ := σ) ParseM.nested : Power → ParseM σ Expr) = expression := by
  funext power state
  rw [opening, expression, within_nested]

section InStep

variable {C : Coupling σ τ} {wrap : ParseM σ Expr → ParseM σ Expr}
  {other : ParseM τ Expr → ParseM τ Expr}
  (hwrap : ∀ (first : ParseM σ Expr) (second : ParseM τ Expr), InStep C first second →
    InStep C (wrap first) (other second))
include hwrap

/-- Two ways to open an expression that stay in step around whatever stays in step inside: so do
as many expressions inside one another. -/
theorem inStep_within (room : Nat) (power : Power) :
    InStep C (within wrap room power) (within other room power) := by
  induction room generalizing power with
  | zero => exact hwrap _ _ inferInstance
  | succ room ih => exact hwrap _ _ inferInstance

/-- The expressions that they open stay in step. -/
theorem opening_inStep
    (hroom : ∀ {state : Parser σ} {behind : Parser τ}, C.together state behind →
      state.limit - state.depth = behind.limit - behind.depth)
    (power : Power) : InStep C (opening wrap power) (opening other power) := by
  have hwithin := inStep_within hwrap
  refine ⟨fun {state behind} htogether => ?_, ⟨fun state => ?_⟩, ⟨fun behind => ?_⟩⟩
  · rw [opening, opening, hroom htogether]
    exact InStep.meets (within wrap _ power) (within other _ power) htogether
  · exact ((hwithin (state.limit - state.depth) power).keeps_left).keeps state
  · exact ((hwithin (behind.limit - behind.depth) power).keeps_right).keeps behind

end InStep

/-- Where there is room for just so many more expressions, that many inside one another are all. -/
theorem within_inStep (wrap : ParseM σ Expr → ParseM σ Expr) [Deepens wrap] {depth limit room : Nat}
    (hroom : limit - depth = room) (power : Power) :
    InStep (.twice (Parser.Opens depth limit)) (within wrap room power) (opening wrap power) where
  inStep := by
    rintro state _ ⟨rfl, hdepth, hlimit⟩
    have hkept := keeps_within (R := Parser.Precedes) wrap (fun action _ => Deepens.precedes action)
      room power
    have hlater := Keeps.after Parser.Precedes (within wrap room power) state
    rw [opening, hdepth, hlimit, hroom]
    exact Or.inl ⟨rfl, rfl, hlater.depth.trans hdepth, hlater.limit.trans hlimit⟩

/-- An expression is opened by `wrap`, and all that lies inside is read the same way. -/
theorem opening_eq_wrap (wrap : ParseM σ Expr → ParseM σ Expr) [Deepens wrap] (power : Power) :
    opening wrap power = wrap (body (opening wrap) power) := by
  funext state
  rw [opening]
  cases hroom : state.limit - state.depth with
  | zero =>
      refine Deepens.deeper fun hopen => ?_
      omega
  | succ room =>
      refine Deepens.deeper fun _ inside hdepth hlimit => ?_
      have hleft : state.limit - (state.depth + 1) = room := by omega
      have hinner := within_inStep wrap hleft
      have hopens : inside.Opens (state.depth + 1) state.limit := ⟨hdepth, hlimit⟩
      exact Coupling.twice.eq_of_inStep (body (within wrap room) power) (body (opening wrap) power)
        hopens

end Rule

omit [TokenSupply σ] in
/-- Whether there is room decides whether what is read inside counts. -/
theorem ParseM.nested_congr {first second : ParseM σ α} {state : Parser σ}
    (hsame : state.depth < state.limit → ∀ inside : Parser σ, inside.depth = state.depth + 1 →
      inside.limit = state.limit → first inside = second inside) :
    nested first state = nested second state := by
  by_cases hopen : state.depth < state.limit
  · rw [nested_eq_opened first hopen, nested_eq_opened second hopen, opened_apply, opened_apply,
      hsame hopen state.opened rfl rfl]
  · rw [nested_eq_record first hopen, nested_eq_record second hopen]

instance : Deepens (σ := σ) ParseM.nested where
  precedes _ := inferInstance
  deeper := ParseM.nested_congr

/-- An expression goes on with a lookahead that binds more tightly and is no semicolon. -/
theorem Rule.continues_iff_lt {σ : Type} {power : Power} {state : Parser σ} :
    Rule.continues power state = true ↔
      state.peek.kind ≠ .semicolon ∧ power < state.grammar.power state.peek.kind := by
  rw [Rule.continues, Bool.and_eq_true, decide_eq_true_iff]
  simp [Parser.peekIs, Parser.peekPower]

/-- Where an expression goes on, the lookahead is an operator. -/
theorem Rule.operator_of_continues {σ : Type} {power : Power} {state : Parser σ}
    (hmore : Rule.continues power state = true) :
    ∃ strength rule, state.grammar.operator state.peek.kind = some (strength, rule) := by
  obtain ⟨-, hless⟩ := Rule.continues_iff_lt.1 hmore
  cases hoperator : state.grammar.operator state.peek.kind with
  | none =>
      rw [Grammar.power_of_operator_none hoperator] at hless
      exact absurd (Power.lowest_le power) (Nat.not_le.2 hless)
  | some operator => exact ⟨operator.1, operator.2, rfl⟩

/-- An operator of the grammar in the lookahead is taken by its rule. -/
theorem Rule.extend_of_rule {inner : Power → ParseM σ Expr} {left : Expr} {state : Parser σ}
    {power : Power} {rule : OperatorRule}
    (hoperator : state.grammar.operator state.peek.kind = some (power, rule)) :
    Rule.extend inner left state = Rule.operatorBy inner left rule state.advance := by
  rw [Rule.extend, ParseM.bind_apply, ParseM.inspect_apply]
  dsimp only
  rw [hoperator]
  rfl

/-- Reading an expression, in terms of itself: one more expression is opened for its start and its
operators, and all that lies inside is read the same way. -/
theorem expression_eq_nested (power : Power) :
    (expression power : ParseM σ Expr) = ParseM.nested (Rule.body expression power) := by
  rw [← Rule.opening_nested, Rule.opening_eq_wrap, Rule.opening_nested]

end ExprLang
