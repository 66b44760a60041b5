/-
What no action on a parser undoes.  A relation between an earlier and a later parser that every
elementary move keeps is kept by each rule, by each repetition and by reading whole expressions,
whatever the tokens are.  A relation that is lost where a repetition is given up is kept all the
same if the repetitions of the rules keep it.
-/
import ExprLang.Parse

namespace ExprLang

variable {σ α β : Type} [TokenSupply σ]

/-- A relation between an earlier and a later parser that holds across every elementary move but
that of giving up a repetition.  Opening an expression and closing it again is one move around
whatever lies between. -/
class Enduring (R : Parser σ → Parser σ → Prop) : Prop where
  refl (state : Parser σ) : R state state
  trans {first second third : Parser σ} : R first second → R second third → R first third
  advance (state : Parser σ) : R state state.advance
  record (state : Parser σ) (error : SyntaxError) : R state (state.record error)
  nested {state inside : Parser σ} :
    state.depth < state.limit → R state.enter.2 inside → R state inside.leave

/-- A relation between an earlier and a later parser that holds across every elementary move. -/
class Lasting (R : Parser σ → Parser σ → Prop) : Prop extends Enduring R where
  stall (state : Parser σ) : R state { state with stalled := true }

/-- An action across which a relation holds, from whatever parser it starts. -/
class Keeps (R : Parser σ → Parser σ → Prop) (action : ParseM σ α) : Prop where
  keeps (state : Parser σ) : R state (action state).2

omit [TokenSupply σ] in
theorem Keeps.after (R : Parser σ → Parser σ → Prop) (action : ParseM σ α) [Keeps R action]
    (state : Parser σ) : R state (action state).2 :=
  Keeps.keeps state

namespace Keeps

open ParseM

variable {R : Parser σ → Parser σ → Prop} [Enduring R]

instance (value : α) : Keeps R (pure value : ParseM σ α) :=
  ⟨Enduring.refl⟩

instance (action : ParseM σ α) (next : α → ParseM σ β) [Keeps R action]
    [∀ value, Keeps R (next value)] : Keeps R (action >>= next) where
  keeps state := by
    have haction := Keeps.after R action state
    rw [bind_apply]
    rcases hresult : action state with ⟨value, after⟩
    rw [hresult] at haction
    cases value with
    | none => exact haction
    | some value => exact Enduring.trans haction (Keeps.after R (next value) after)

instance (view : Parser σ → α) : Keeps R (inspect view) :=
  ⟨Enduring.refl⟩

instance (result : Option α) : Keeps R (answer result : ParseM σ α) :=
  ⟨Enduring.refl⟩

instance (action : ParseM σ α) [Keeps R action] : Keeps R (attempt action) :=
  ⟨Keeps.after R action⟩

instance (error : SyntaxError) : Keeps R (fail error : ParseM σ α) :=
  ⟨fun state => Enduring.record state error⟩

instance : Keeps R (advance : ParseM σ Unit) :=
  ⟨Enduring.advance⟩

instance (kind : TokenKind) : Keeps R (expect kind : ParseM σ Unit) where
  keeps state := by
    unfold expect
    split
    · exact Enduring.advance state
    · exact Enduring.record state _

instance (condition : Prop) [Decidable condition] (first second : ParseM σ α) [Keeps R first]
    [Keeps R second] : Keeps R (if condition then first else second) := by
  split <;> infer_instance

instance (action : ParseM σ α) [Keeps R action] : Keeps R (nested action) where
  keeps state := by
    unfold nested
    by_cases hroom : state.depth < state.limit
    · have hinside := Keeps.after R action state.enter.2
      simp only [Parser.enter, hroom, ↓reduceIte] at hinside ⊢
      exact Enduring.nested hroom (by simpa only [Parser.enter, hroom, ↓reduceIte] using hinside)
    · simp only [Parser.enter, hroom, ↓reduceIte]
      exact Enduring.record state _

section Repetitions

/-- A repetition whose steps keep a relation keeps it, if it does so where it is given up. -/
theorem improveWhile_of_stalled {more : Parser σ → Bool} {step : α → ParseM σ α}
    [∀ value, Keeps R (step value)]
    (hstalled : ∀ {value better : α} {state after : Parser σ}, more state = true →
      step value state = (some better, after) → ¬ after.ahead < state.ahead →
      R state after → R state { after with stalled := true })
    (start : α) : Keeps R (improveWhile more step start) where
  keeps state := by
    fun_induction ParseM.improveWhile more step start state with
    | case1 start state hmore after hstep =>
        have hkept := Keeps.after R (step start) state
        rwa [hstep] at hkept
    | case2 start state hmore better after hstep hless ih =>
        have hkept := Keeps.after R (step start) state
        rw [hstep] at hkept
        exact Enduring.trans hkept ih
    | case3 start state hmore better after hstep hless =>
        have hkept := Keeps.after R (step start) state
        rw [hstep] at hkept
        exact hstalled hmore hstep hless hkept
    | case4 start state hmore => exact Enduring.refl state

theorem answersWhile_of_stalled {more : Parser σ → Bool} {action : ParseM σ α} [Keeps R action]
    (hstalled : ∀ {state behind : Parser σ}, more state = true →
      ¬ behind.advance.ahead < state.ahead → R state behind →
      R state { behind.advance with stalled := true })
    (state : Parser σ) : R state (answersWhile more action state).2 := by
  fun_induction ParseM.answersWhile more action state with
  | case1 state hmore result behind hresult after hless later final hlater ih =>
      have hkept := Keeps.after R action state
      rw [hresult] at hkept
      rw [hlater] at ih
      exact Enduring.trans (Enduring.trans hkept (Enduring.advance behind)) ih
  | case2 state hmore result behind hresult after hless =>
      have hkept := Keeps.after R action state
      rw [hresult] at hkept
      exact hstalled hmore hless hkept
  | case3 state hmore => exact Enduring.refl state

variable {R : Parser σ → Parser σ → Prop} [Lasting R]

instance (more : Parser σ → Bool) (step : α → ParseM σ α) (start : α)
    [∀ value, Keeps R (step value)] : Keeps R (improveWhile more step start) :=
  improveWhile_of_stalled (R := R)
    (fun {_ _ _ after} _ _ _ hkept => Enduring.trans hkept (Lasting.stall after)) start

theorem answersWhile (more : Parser σ → Bool) (action : ParseM σ α) [Keeps R action]
    (state : Parser σ) : R state (answersWhile more action state).2 :=
  answersWhile_of_stalled (R := R) (fun {_ behind} _ _ hkept =>
    Enduring.trans (Enduring.trans hkept (Enduring.advance behind)) (Lasting.stall _)) state

end Repetitions

end Keeps

/-- A way to carry out repetitions across which every relation lasts that lasts across each
round. -/
class Repetition.Lawful (loops : Repetition σ) : Prop where
  improveWhile {α : Type} {R : Parser σ → Parser σ → Prop} [Lasting R] (more : Parser σ → Bool)
    (step : α → ParseM σ α) (start : α) [∀ value, Keeps R (step value)] :
    Keeps R (loops.improveWhile more step start)
  answersWhile {α : Type} {R : Parser σ → Parser σ → Prop} [Lasting R] (more : Parser σ → Bool)
    (action : ParseM σ α) [Keeps R action] (state : Parser σ) :
    R state (loops.answersWhile more action state).2

instance : (Repetition.guarded : Repetition σ).Lawful where
  improveWhile more step start := inferInstanceAs (Keeps _ (ParseM.improveWhile more step start))
  answersWhile := Keeps.answersWhile

/-- A relation that endures and that the repetitions of the rules keep: those of parts with commas
between them, those of operators, and those of statements, which stop at the end of input at the
latest. -/
class Repeating [Repetition σ] (R : Parser σ → Parser σ → Prop) : Prop extends Enduring R where
  parts {α : Type} (part : ParseM σ α) [Keeps R part] (found : List α) :
    Keeps R (Repetition.improveWhile (Parser.peekIs .comma) (Rule.onePart part) found)
  operators (inner : Power → ParseM σ Expr)
    [∀ left rule, Keeps R (Rule.operatorBy inner left rule)] (power : Power) (left : Expr) :
    Keeps R (Rule.absorb inner power left)
  statements {more : Parser σ → Bool} (action : ParseM σ Stmt) [Keeps R action]
    (hmore : ∀ state, more state = true → state.current.kind ≠ .eof) (state : Parser σ) :
    R state (Repetition.answersWhile more action state).2

namespace Keeps

open ParseM

section Looping

variable {loops : Repetition σ}

instance {R : Parser σ → Parser σ → Prop} [Enduring R] (part : ParseM σ α) [Keeps R part]
    (found : List α) : Keeps R (Rule.onePart part found) := by
  unfold Rule.onePart
  infer_instance

instance {R : Parser σ → Parser σ → Prop} [Enduring R] (inner : Power → ParseM σ Expr)
    [∀ left rule, Keeps R (Rule.operatorBy inner left rule)] (left : Expr) :
    Keeps R (Rule.extend inner left) := by
  unfold Rule.extend
  have hcase : ∀ operator : Option (Power × OperatorRule), Keeps R
      (match operator with
        | none => pure left
        | some (_, rule) => do
          advance
          Rule.operatorBy inner left rule) := by
    rintro (_ | ⟨_, rule⟩) <;> infer_instance
  infer_instance

instance {R : Parser σ → Parser σ → Prop} [Lasting R] [loops.Lawful]
    (more : Parser σ → Bool) (step : α → ParseM σ α) (start : α) [∀ value, Keeps R (step value)] :
    Keeps R (Repetition.improveWhile more step start) :=
  Repetition.Lawful.improveWhile more step start

instance {R : Parser σ → Parser σ → Prop} [Lasting R] [loops.Lawful] : Repeating R where
  parts _ _ _ := inferInstance
  operators _ _ _ _ := by
    unfold Rule.absorb
    infer_instance
  statements action _ _ := Repetition.Lawful.answersWhile _ action

section Rules

variable {R : Parser σ → Parser σ → Prop} [Enduring R] (inner : Power → ParseM σ Expr)
  [∀ power, Keeps R (inner power)]

instance : Keeps R (Rule.skipSemicolon : ParseM σ Unit) where
  keeps state := by
    unfold Rule.skipSemicolon
    dsimp only
    split
    · exact Enduring.advance state
    · exact Enduring.refl state

instance (token : Token) (name : Ident) : Keeps R (Rule.assignment inner token name) := by
  unfold Rule.assignment
  infer_instance

instance : Keeps R (Rule.binding inner) := by
  unfold Rule.binding
  infer_instance

instance : Keeps R (Rule.returning inner) := by
  unfold Rule.returning
  infer_instance

instance : Keeps R (Rule.expressionStatement inner) := by
  unfold Rule.expressionStatement
  infer_instance

instance (rule : StatementRule) : Keeps R (Rule.statementBy inner rule) := by
  cases rule <;> (unfold Rule.statementBy; infer_instance)

instance : Keeps R (Rule.statement inner) := by
  unfold Rule.statement
  infer_instance

instance : Keeps R (Rule.ident : ParseM σ Expr) := by
  unfold Rule.ident
  infer_instance

instance : Keeps R (Rule.integer : ParseM σ Expr) := by
  unfold Rule.integer
  have hcase : ∀ (token : Token) (number : Option Int64), Keeps R
      (match number with
        | some value => (pure (.integer token value) : ParseM σ Expr)
        | none => fail (.badInteger token.lexeme)) := by
    rintro token (_ | value) <;> infer_instance
  infer_instance

instance : Keeps R (Rule.boolean : ParseM σ Expr) := by
  unfold Rule.boolean
  infer_instance

instance : Keeps R (Rule.unary inner) := by
  unfold Rule.unary
  infer_instance

instance : Keeps R (Rule.grouped inner) := by
  unfold Rule.grouped
  infer_instance

instance : Keeps R (Rule.nextIdent : ParseM σ Ident) := by
  unfold Rule.nextIdent
  infer_instance

instance : Keeps R (Rule.argument inner) := by
  unfold Rule.argument
  infer_instance

instance (left : Expr) : Keeps R (Rule.binary inner left) := by
  unfold Rule.binary
  infer_instance

end Rules

section Repetitions

variable {R : Parser σ → Parser σ → Prop} [Repeating R] (inner : Power → ParseM σ Expr)
  [∀ power, Keeps R (inner power)]

theorem statements (state : Parser σ) : R state (Rule.statements inner state).2 :=
  Repeating.statements (Rule.statement inner) (by simp [Parser.currentIs]) state

theorem block (state : Parser σ) : R state (Rule.block inner state).2 := by
  have hread : R state (Repetition.answersWhile
      (fun state : Parser σ => !state.currentIs .closeCurly && !state.currentIs .eof)
      (Rule.statement inner) state.advance).2 :=
    Enduring.trans (Enduring.advance state)
      (Repeating.statements (Rule.statement inner) (by simp [Parser.currentIs]) state.advance)
  unfold Rule.block
  dsimp only
  split
  · exact Enduring.trans hread (Enduring.record _ _)
  · exact hread

instance : Keeps R (always (Rule.block inner)) :=
  ⟨block inner⟩

instance : Keeps R (Rule.otherArm inner) := by
  unfold Rule.otherArm
  infer_instance

instance : Keeps R (Rule.alternative inner) := by
  unfold Rule.alternative
  infer_instance

instance (token : Token) (condition : Option Expr) : Keeps R (Rule.arms inner token condition) := by
  unfold Rule.arms
  infer_instance

instance (token : Token) : Keeps R (Rule.condition inner token) := by
  unfold Rule.condition
  infer_instance

instance : Keeps R (Rule.conditional inner) := by
  unfold Rule.conditional
  infer_instance

instance (part : ParseM σ α) [Keeps R part] (found : List α) :
    Keeps R (Rule.listRest part found) := by
  unfold Rule.listRest
  have hloop := Repeating.parts (R := R) part found
  infer_instance

instance (part : ParseM σ α) [Keeps R part] : Keeps R (Rule.listOf part) := by
  unfold Rule.listOf
  infer_instance

instance : Keeps R (Rule.parameters : ParseM σ (List Ident)) := by
  unfold Rule.parameters
  infer_instance

instance : Keeps R (Rule.function inner) := by
  unfold Rule.function
  infer_instance

instance : Keeps R (Rule.arguments inner) := by
  unfold Rule.arguments
  infer_instance

instance (callee : Expr) : Keeps R (Rule.call inner callee) := by
  unfold Rule.call
  infer_instance

instance (rule : StartRule) : Keeps R (Rule.startBy inner rule) := by
  cases rule <;> (unfold Rule.startBy; infer_instance)

instance (left : Expr) (rule : OperatorRule) : Keeps R (Rule.operatorBy inner left rule) := by
  cases rule <;> (unfold Rule.operatorBy; infer_instance)

instance (power : Power) (left : Expr) : Keeps R (Rule.absorb inner power left) :=
  Repeating.operators inner power left

instance : Keeps R (Rule.start inner) := by
  unfold Rule.start
  have hcase : ∀ (kind : TokenKind) (rule : Option StartRule), Keeps R
      (match rule with
        | none => fail (.noExpression kind)
        | some rule => Rule.startBy inner rule) := by
    rintro kind (_ | rule) <;> infer_instance
  infer_instance

instance (power : Power) : Keeps R (Rule.body inner power) := by
  unfold Rule.body
  infer_instance

end Repetitions

instance {R : Parser σ → Parser σ → Prop} [Repeating R] (room : Nat) (power : Power) :
    Keeps R (Rule.expressionWithin room power : ParseM σ Expr) := by
  induction room generalizing power with
  | zero => unfold Rule.expressionWithin; infer_instance
  | succ room ih => unfold Rule.expressionWithin; infer_instance

end Looping

/-- Reading an expression of any power keeps every relation that elementary moves keep. -/
instance {R : Parser σ → Parser σ → Prop} [Repeating R] (power : Power) :
    Keeps R (ExprLang.expression power : ParseM σ Expr) where
  keeps state :=
    Keeps.after R (Rule.expressionWithin (state.limit - state.depth) power) state

end Keeps

namespace Parser

/-- What holds between a parser and the one behind any action on it.  Errors are only added, no more
tokens lie ahead, and the grammar, the limit and the number of open expressions are as before. -/
structure Precedes (earlier later : Parser σ) : Prop where
  errors : earlier.errors.toList <+: later.errors.toList
  ahead : later.ahead ≤ earlier.ahead
  grammar : later.grammar = earlier.grammar
  limit : later.limit = earlier.limit
  depth : later.depth = earlier.depth

omit [TokenSupply σ] in
@[simp]
theorem record_errors (error : SyntaxError) (state : Parser σ) :
    (state.record error).errors.toList = state.errors.toList ++ [error] := by
  simp [record]

instance : Lasting (@Precedes σ _) where
  refl state := ⟨List.prefix_refl _, Nat.le_refl _, rfl, rfl, rfl⟩
  trans hfirst hsecond :=
    ⟨hfirst.errors.trans hsecond.errors, Nat.le_trans hsecond.ahead hfirst.ahead,
      hsecond.grammar.trans hfirst.grammar, hsecond.limit.trans hfirst.limit,
      hsecond.depth.trans hfirst.depth⟩
  advance state := ⟨List.prefix_refl _, ahead_advance_le state, rfl, rfl, rfl⟩
  record state error :=
    ⟨by rw [record_errors]; exact List.prefix_append _ _, Nat.le_refl _, rfl, rfl, rfl⟩
  stall state := ⟨List.prefix_refl _, Nat.le_refl _, rfl, rfl, rfl⟩
  nested {state inside} hroom hinside := by
    simp only [enter, hroom, ↓reduceIte] at hinside
    obtain ⟨herrors, hahead, hgrammar, hlimit, hdepth⟩ := hinside
    refine ⟨herrors, hahead, hgrammar, hlimit, ?_⟩
    simp only [leave, hdepth, Nat.add_sub_cancel]

end Parser

end ExprLang
