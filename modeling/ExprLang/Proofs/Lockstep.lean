/-
Two parsers worked side by side.  A coupling relates two parsers for as long as they do the same;
once they have parted, nothing that either of them does later takes that back.  Every rule keeps a
coupling that the elementary moves keep, whatever the tokens are, if the ways in which the two sides
read the expressions inside keep it.
-/
import ExprLang.Proofs.Frame

namespace ExprLang

variable {σ τ α β : Type} [TokenSupply σ] [TokenSupply τ]

/-- Every relation between parsers that always holds is kept by every move. -/
instance Lasting.trivially : Lasting (fun _ _ : Parser σ => True) where
  refl _ := trivial
  trans _ _ := trivial
  advance _ := trivial
  record _ _ := trivial
  stall _ := trivial
  nested _ _ := trivial

/-- How two parsers can be worked side by side.  While they are `together` they have the same tokens
and the same grammar before them.  `left` and `right` are what each of them knows about its own
way: it decides whether a round of a repetition got on, and it keeps them `apart` where they
are. -/
structure Coupling (σ τ : Type) [TokenSupply σ] [TokenSupply τ] where
  together : Parser σ → Parser τ → Prop
  apart : Parser σ → Parser τ → Prop
  left : Parser σ → Parser σ → Prop
  right : Parser τ → Parser τ → Prop
  lasting_left : Lasting left
  lasting_right : Lasting right
  current {state : Parser σ} {other : Parser τ} : together state other →
    state.current = other.current
  peek {state : Parser σ} {other : Parser τ} : together state other → state.peek = other.peek
  grammar {state : Parser σ} {other : Parser τ} : together state other →
    state.grammar = other.grammar
  advance {state : Parser σ} {other : Parser τ} : together state other →
    together state.advance other.advance
  record {state : Parser σ} {other : Parser τ} {error : SyntaxError} :
    (∀ limit, error ≠ .nestingTooDeep limit) → together state other →
    together (state.record error) (other.record error)
  stall {state : Parser σ} {other : Parser τ} : together state other →
    together { state with stalled := true } { other with stalled := true }
  ahead {state after : Parser σ} {other later : Parser τ} : together state other →
    left state after → right other later → together after later →
    (after.ahead < state.ahead ↔ later.ahead < other.ahead)
  apart_left {state after : Parser σ} {other : Parser τ} : apart state other →
    left state after → apart after other
  apart_right {state : Parser σ} {other later : Parser τ} : apart state other →
    right other later → apart state later

namespace Coupling

variable (C : Coupling σ τ)

instance : Lasting C.left := C.lasting_left

instance : Lasting C.right := C.lasting_right

/-- Two outcomes that agree: the answers are the same and the parsers are still together, or else
the parsers have parted. -/
def Meets (first : Option α × Parser σ) (second : Option α × Parser τ) : Prop :=
  (first.1 = second.1 ∧ C.together first.2 second.2) ∨ C.apart first.2 second.2

variable {C}

theorem Meets.apart_of_later {first : Option α × Parser σ} {second : Option α × Parser τ}
    {state : Parser σ} {other : Parser τ} (hapart : C.apart state other)
    (hleft : C.left state first.2) (hright : C.right other second.2) : C.Meets first second :=
  Or.inr (C.apart_right (C.apart_left hapart hleft) hright)

end Coupling

/-- Two views of parsers that see the same while the parsers are together. -/
class Sees (C : Coupling σ τ) (view : Parser σ → α) (other : Parser τ → α) : Prop where
  sees {first : Parser σ} {second : Parser τ} : C.together first second → view first = other second

/-- Two actions that turn out the same from parsers that are together.  Each of them keeps what its
side knows about its own way. -/
class InStep (C : Coupling σ τ) (first : ParseM σ α) (second : ParseM τ α) : Prop where
  inStep {state : Parser σ} {other : Parser τ} : C.together state other →
    C.Meets (first state) (second other)
  keeps_left : Keeps C.left first := by infer_instance
  keeps_right : Keeps C.right second := by infer_instance

/-- Repetitions on both sides that stay in step if each of their rounds does. -/
class Coupling.RepeatsInStep (C : Coupling σ τ) (loops : Repetition σ) (others : Repetition τ) :
    Prop where
  improveWhile {α : Type} (more : Parser σ → Bool) (goes : Parser τ → Bool) (step : α → ParseM σ α)
    (other : α → ParseM τ α) (start : α) [Sees C more goes]
    [∀ value, InStep C (step value) (other value)] :
    InStep C (loops.improveWhile more step start) (others.improveWhile goes other start)
  answersWhile {α : Type} (more : Parser σ → Bool) (goes : Parser τ → Bool) (first : ParseM σ α)
    (second : ParseM τ α) [Sees C more goes] [InStep C first second] :
    InStep C (ParseM.always (loops.answersWhile more first))
      (ParseM.always (others.answersWhile goes second))

namespace Keeps

open ParseM

variable {R : Parser σ → Parser σ → Prop} [Lasting R]

/-- What an action keeps on the way from the first part of it on. -/
theorem bind_rest (action : ParseM σ α) (next : α → ParseM σ β) [∀ value, Keeps R (next value)]
    (state : Parser σ) : R (action state).2 ((action >>= next) state).2 := by
  rw [bind_apply]
  rcases action state with ⟨_ | value, after⟩
  · exact Enduring.refl after
  · exact Keeps.after R (next value) after

theorem improveWhile_rest {more : Parser σ → Bool} {step : α → ParseM σ α} {start : α}
    {state : Parser σ} [∀ value, Keeps R (step value)] (hmore : more state = true) :
    R (step start state).2 (improveWhile more step start state).2 := by
  rw [improveWhile, if_pos hmore]
  rcases step start state with ⟨_ | better, after⟩
  · exact Enduring.refl after
  · dsimp only
    split
    · exact Keeps.after R (improveWhile more step better) after
    · exact Lasting.stall after

theorem answersWhile_rest {more : Parser σ → Bool} {action : ParseM σ α} {state : Parser σ}
    [Keeps R action] (hmore : more state = true) :
    R (action state).2 (ParseM.answersWhile more action state).2 := by
  rw [ParseM.answersWhile, if_pos hmore]
  rcases action state with ⟨result, behind⟩
  dsimp only
  split
  · exact Enduring.trans (Enduring.advance behind) (answersWhile more action behind.advance)
  · exact Enduring.trans (Enduring.advance behind) (Lasting.stall _)

end Keeps

namespace Sees

variable {C : Coupling σ τ}

theorem same (view : Parser σ → α) (other : Parser τ → α) [Sees C view other] {first : Parser σ}
    {second : Parser τ} (htogether : C.together first second) : view first = other second :=
  Sees.sees htogether

instance : Sees C (@Parser.current σ) (@Parser.current τ) :=
  ⟨C.current⟩

instance : Sees C (@Parser.currentIdent σ) (@Parser.currentIdent τ) :=
  ⟨fun htogether => by rw [Parser.currentIdent, Parser.currentIdent, C.current htogether]⟩

instance : Sees C (@Parser.currentPower σ) (@Parser.currentPower τ) :=
  ⟨fun htogether => by
    rw [Parser.currentPower, Parser.currentPower, C.current htogether, C.grammar htogether]⟩

instance (kind : TokenKind) : Sees C (Parser.currentIs kind) (Parser.currentIs kind) :=
  ⟨fun htogether => by rw [Parser.currentIs, Parser.currentIs, C.current htogether]⟩

instance (kind : TokenKind) : Sees C (Parser.peekIs kind) (Parser.peekIs kind) :=
  ⟨fun htogether => by rw [Parser.peekIs, Parser.peekIs, C.peek htogether]⟩

instance (power : Power) : Sees C (Rule.continues power) (Rule.continues power) :=
  ⟨fun htogether => by
    rw [Rule.continues, Rule.continues, Parser.peekIs, Parser.peekIs, Parser.peekPower,
      Parser.peekPower, C.peek htogether, C.grammar htogether]⟩

instance : Sees C (fun state => state.grammar.statementRule state.current.kind)
    (fun state => state.grammar.statementRule state.current.kind) :=
  ⟨fun htogether => by rw [C.grammar htogether, C.current htogether]⟩

instance (view : Parser σ → Bool) (other : Parser τ → Bool) [Sees C view other] :
    Sees C (fun state => !view state) (fun state => !other state) :=
  ⟨fun htogether => by rw [same view other htogether]⟩

instance (view second : Parser σ → Bool) (other last : Parser τ → Bool) [Sees C view other]
    [Sees C second last] :
    Sees C (fun state => view state && second state) (fun state => other state && last state) :=
  ⟨fun htogether => by
    rw [same view other htogether, same second last htogether]⟩

end Sees

namespace InStep

open ParseM

variable {C : Coupling σ τ}

theorem meets (first : ParseM σ α) (second : ParseM τ α) [InStep C first second]
    {state : Parser σ} {other : Parser τ} (htogether : C.together state other) :
    C.Meets (first state) (second other) :=
  InStep.inStep htogether

theorem left (C : Coupling σ τ) (first : ParseM σ α) (second : ParseM τ α) [InStep C first second] :
    Keeps C.left first :=
  InStep.keeps_left second

theorem right (C : Coupling σ τ) (first : ParseM σ α) (second : ParseM τ α)
    [InStep C first second] : Keeps C.right second :=
  InStep.keeps_right first

instance (value : α) : InStep C (pure value) (pure value) where
  inStep htogether := Or.inl ⟨rfl, htogether⟩

instance (result : Option α) : InStep C (answer result) (answer result) where
  inStep htogether := Or.inl ⟨rfl, htogether⟩

instance (view : Parser σ → α) (other : Parser τ → α) [Sees C view other] :
    InStep C (inspect view) (inspect other) where
  inStep htogether := Or.inl ⟨congrArg some (Sees.sees htogether), htogether⟩

instance : InStep C (advance : ParseM σ Unit) (advance : ParseM τ Unit) where
  inStep htogether := Or.inl ⟨rfl, C.advance htogether⟩

theorem fail_of_ne {error : SyntaxError} (herror : ∀ limit, error ≠ .nestingTooDeep limit) :
    InStep C (fail error : ParseM σ α) (fail error : ParseM τ α) where
  inStep htogether := Or.inl ⟨rfl, C.record herror htogether⟩

instance (kind : TokenKind) :
    InStep C (fail (.noExpression kind) : ParseM σ α) (fail (.noExpression kind) : ParseM τ α) :=
  fail_of_ne fun _ => SyntaxError.noConfusion

instance (lexeme : String) :
    InStep C (fail (.badInteger lexeme) : ParseM σ α) (fail (.badInteger lexeme) : ParseM τ α) :=
  fail_of_ne fun _ => SyntaxError.noConfusion

instance (kind : TokenKind) :
    InStep C (expect kind : ParseM σ Unit) (expect kind : ParseM τ Unit) where
  inStep {state other} htogether := by
    have hpeek : state.peekIs kind = other.peekIs kind := Sees.sees htogether
    unfold expect
    rw [hpeek, C.peek htogether]
    split
    · exact Or.inl ⟨rfl, C.advance htogether⟩
    · exact Or.inl ⟨rfl, C.record (fun _ => SyntaxError.noConfusion) htogether⟩

instance (first : ParseM σ α) (second : ParseM τ α) (next : α → ParseM σ β)
    (other : α → ParseM τ β) [InStep C first second]
    [∀ value, InStep C (next value) (other value)] :
    InStep C (first >>= next) (second >>= other) where
  inStep {state behind} htogether := by
    have hnext (value : α) := left C (next value) (other value)
    have hother (value : α) := right C (next value) (other value)
    have hleft := Keeps.bind_rest (R := C.left) first next state
    have hright := Keeps.bind_rest (R := C.right) second other behind
    rcases meets first second htogether with ⟨hanswer, hafter⟩ | hapart
    · rcases hfirst : first state with ⟨value, after⟩
      rcases hsecond : second behind with ⟨same, later⟩
      rw [hfirst, hsecond] at hanswer hafter
      obtain rfl : value = same := hanswer
      cases value with
      | none =>
          rw [bind_of_none hfirst, bind_of_none hsecond]
          exact Or.inl ⟨rfl, hafter⟩
      | some value =>
          rw [bind_of_some hfirst, bind_of_some hsecond]
          exact meets (next value) (other value) hafter
    · exact .apart_of_later hapart hleft hright
  keeps_left := by
    have hfirst := left C first second
    have hnext (value : α) := left C (next value) (other value)
    infer_instance
  keeps_right := by
    have hsecond := right C first second
    have hother (value : α) := right C (next value) (other value)
    infer_instance

instance (first : ParseM σ α) (second : ParseM τ α) [InStep C first second] :
    InStep C (attempt first) (attempt second) where
  inStep htogether := by
    rcases meets first second htogether with ⟨hanswer, hafter⟩ | hapart
    · exact Or.inl ⟨congrArg some hanswer, hafter⟩
    · exact Or.inr hapart
  keeps_left := by
    have hfirst := left C first second
    infer_instance
  keeps_right := by
    have hsecond := right C first second
    infer_instance

instance (condition : Prop) [Decidable condition] (first second : ParseM σ α)
    (other last : ParseM τ α) [InStep C first other] [InStep C second last] :
    InStep C (if condition then first else second) (if condition then other else last) := by
  split <;> infer_instance

/-- A repetition that improves an answer stays in step with another one: both take as many steps. -/
instance (more : Parser σ → Bool) (goes : Parser τ → Bool) (step : α → ParseM σ α)
    (other : α → ParseM τ α) (start : α) [Sees C more goes]
    [∀ value, InStep C (step value) (other value)] :
    InStep C (improveWhile more step start) (improveWhile goes other start) := by
  have hstep (value : α) := left C (step value) (other value)
  have hother (value : α) := right C (step value) (other value)
  refine ⟨fun {state behind} htogether => ?_, inferInstance, inferInstance⟩
  induction hfew : state.ahead using Nat.strongRecOn generalizing start state behind with
  | _ few ih =>
      have hsame : more state = goes behind := Sees.sees htogether
      cases hmore : more state with
      | false =>
          rw [improveWhile_of_not hmore, improveWhile_of_not (hsame ▸ hmore)]
          exact Or.inl ⟨rfl, htogether⟩
      | true =>
          have hgoes : goes behind = true := hsame ▸ hmore
          have hleft := Keeps.after C.left (step start) state
          have hright := Keeps.after C.right (other start) behind
          rcases meets (step start) (other start) htogether with ⟨hanswer, hafter⟩ | hapart
          · have hless := C.ahead htogether hleft hright hafter
            rw [improveWhile, if_pos hmore, improveWhile, if_pos hgoes]
            rcases hfirst : step start state with ⟨value, after⟩
            rcases hsecond : other start behind with ⟨same, later⟩
            rw [hfirst, hsecond] at hanswer hafter hless
            obtain rfl : value = same := hanswer
            cases value with
            | none => exact Or.inl ⟨rfl, hafter⟩
            | some better =>
                dsimp only
                by_cases hlater : later.ahead < behind.ahead
                · have hahead : after.ahead < state.ahead := hless.2 hlater
                  rw [if_pos hlater, if_pos hahead]
                  exact ih _ (hfew ▸ hahead) _ hafter rfl
                · rw [if_neg hlater, if_neg (mt hless.1 hlater)]
                  exact Or.inl ⟨rfl, C.stall hafter⟩
          · exact .apart_of_later hapart (Keeps.improveWhile_rest hmore)
              (Keeps.improveWhile_rest hgoes)

/-- A repetition that collects answers stays in step with another one: both go as many rounds. -/
instance (more : Parser σ → Bool) (goes : Parser τ → Bool) (first : ParseM σ α)
    (second : ParseM τ α) [Sees C more goes] [InStep C first second] :
    InStep C (always (answersWhile more first)) (always (answersWhile goes second)) := by
  have hfirst := left C first second
  have hsecond := right C first second
  refine ⟨fun {state behind} htogether => ?_, ⟨Keeps.answersWhile more first⟩,
    ⟨Keeps.answersWhile goes second⟩⟩
  induction hfew : state.ahead using Nat.strongRecOn generalizing state behind with
  | _ few ih =>
      have hsame : more state = goes behind := Sees.sees htogether
      rw [always_apply, always_apply]
      cases hmore : more state with
      | false =>
          rw [answersWhile_of_not hmore, answersWhile_of_not (hsame ▸ hmore)]
          exact Or.inl ⟨rfl, htogether⟩
      | true =>
          have hgoes : goes behind = true := hsame ▸ hmore
          have hleft := Keeps.after C.left first state
          have hright := Keeps.after C.right second behind
          rcases meets first second htogether with ⟨hanswer, hafter⟩ | hapart
          · have hless := C.ahead htogether (Enduring.trans hleft (Enduring.advance _))
              (Enduring.trans hright (Enduring.advance _)) (C.advance hafter)
            rw [answersWhile, if_pos hmore, answersWhile, if_pos hgoes]
            rcases hfirst : first state with ⟨value, after⟩
            rcases hsecond : second behind with ⟨same, later⟩
            rw [hfirst, hsecond] at hanswer hafter hless
            obtain rfl : value = same := hanswer
            dsimp only
            by_cases hlater : later.advance.ahead < behind.ahead
            · have hahead : after.advance.ahead < state.ahead := hless.2 hlater
              rw [if_pos hlater, if_pos hahead]
              rcases ih _ (hfew ▸ hahead) (C.advance hafter) rfl with ⟨hrest, hlast⟩ | hapart
              · refine Or.inl ⟨?_, hlast⟩
                have hrest := Option.some.inj hrest
                exact congrArg (fun rest => some (value.toList ++ rest)) hrest
              · exact Or.inr hapart
            · rw [if_neg hlater, if_neg (mt hless.1 hlater)]
              exact Or.inl ⟨rfl, C.stall (C.advance hafter)⟩
          · exact .apart_of_later hapart (Keeps.answersWhile_rest hmore)
              (Keeps.answersWhile_rest hgoes)

instance : C.RepeatsInStep Repetition.guarded Repetition.guarded where
  improveWhile more goes step other start :=
    inferInstanceAs (InStep C (improveWhile more step start) (improveWhile goes other start))
  answersWhile more goes first second :=
    inferInstanceAs (InStep C (always (answersWhile more first))
      (always (answersWhile goes second)))

section Rules

variable (inner : Power → ParseM σ Expr) (other : Power → ParseM τ Expr)
  [∀ power, InStep C (inner power) (other power)]

instance : InStep C (Rule.skipSemicolon : ParseM σ Unit) (Rule.skipSemicolon : ParseM τ Unit) where
  inStep {state behind} htogether := by
    have hpeek : state.peekIs .semicolon = behind.peekIs .semicolon := Sees.sees htogether
    unfold Rule.skipSemicolon
    rw [hpeek]
    split
    · exact Or.inl ⟨rfl, C.advance htogether⟩
    · exact Or.inl ⟨rfl, htogether⟩

instance (token : Token) (name : Ident) :
    InStep C (Rule.assignment inner token name) (Rule.assignment other token name) := by
  unfold Rule.assignment
  infer_instance

instance : InStep C (Rule.binding inner) (Rule.binding other) := by
  unfold Rule.binding
  infer_instance

instance : InStep C (Rule.returning inner) (Rule.returning other) := by
  unfold Rule.returning
  infer_instance

instance : InStep C (Rule.expressionStatement inner) (Rule.expressionStatement other) := by
  unfold Rule.expressionStatement
  infer_instance

instance (rule : StatementRule) :
    InStep C (Rule.statementBy inner rule) (Rule.statementBy other rule) := by
  cases rule <;> (unfold Rule.statementBy; infer_instance)

instance : InStep C (Rule.statement inner) (Rule.statement other) := by
  unfold Rule.statement
  infer_instance

instance : InStep C (Rule.ident : ParseM σ Expr) (Rule.ident : ParseM τ Expr) := by
  unfold Rule.ident
  infer_instance

instance : InStep C (Rule.integer : ParseM σ Expr) (Rule.integer : ParseM τ Expr) where
  inStep {state behind} htogether := by
    rw [Rule.integer, Rule.integer, bind_apply, bind_apply, inspect_apply, inspect_apply,
      C.current htogether]
    dsimp only
    cases readInteger? behind.current.lexeme with
    | some value => exact meets (pure (Expr.integer behind.current value)) (pure _) htogether
    | none =>
        exact meets (fail (.badInteger behind.current.lexeme))
          (fail (.badInteger behind.current.lexeme)) htogether

instance : InStep C (Rule.boolean : ParseM σ Expr) (Rule.boolean : ParseM τ Expr) := by
  unfold Rule.boolean
  infer_instance

instance : InStep C (Rule.unary inner) (Rule.unary other) := by
  unfold Rule.unary
  infer_instance

instance : InStep C (Rule.grouped inner) (Rule.grouped other) := by
  unfold Rule.grouped
  infer_instance

instance : InStep C (Rule.nextIdent : ParseM σ Ident) (Rule.nextIdent : ParseM τ Ident) := by
  unfold Rule.nextIdent
  infer_instance

instance : InStep C (Rule.argument inner) (Rule.argument other) := by
  unfold Rule.argument
  infer_instance

instance (first : ParseM σ α) (second : ParseM τ α) [InStep C first second] (found : List α) :
    InStep C (Rule.onePart first found) (Rule.onePart second found) := by
  unfold Rule.onePart
  infer_instance

instance (left : Expr) : InStep C (Rule.binary inner left) (Rule.binary other left) := by
  unfold Rule.binary
  infer_instance

end Rules

section Repetitions

variable {loops : Repetition σ} {others : Repetition τ} [loops.Lawful] [others.Lawful]
  [C.RepeatsInStep loops others] (inner : Power → ParseM σ Expr)
  (other : Power → ParseM τ Expr) [∀ power, InStep C (inner power) (other power)]

instance : InStep C (always (Rule.statements inner)) (always (Rule.statements other)) :=
  Coupling.RepeatsInStep.answersWhile _ _ (Rule.statement inner) (Rule.statement other)

instance : InStep C (always (Rule.block inner)) (always (Rule.block other)) where
  inStep {state behind} htogether := by
    have hstatements : InStep C
        (always (loops.answersWhile
          (fun state => !state.currentIs .closeCurly && !state.currentIs .eof)
          (Rule.statement inner)))
        (always (others.answersWhile
          (fun state => !state.currentIs .closeCurly && !state.currentIs .eof)
          (Rule.statement other))) :=
      Coupling.RepeatsInStep.answersWhile _ _ (Rule.statement inner) (Rule.statement other)
    have hread := hstatements.inStep (C.advance htogether)
    rw [always_apply, always_apply] at hread ⊢
    unfold Rule.block
    rw [C.current htogether]
    generalize Repetition.answersWhile _ (Rule.statement inner) state.advance = first at hread ⊢
    generalize Repetition.answersWhile _ (Rule.statement other) behind.advance = second at hread ⊢
    obtain ⟨trees, after⟩ := first
    obtain ⟨same, later⟩ := second
    dsimp only at hread ⊢
    rcases hread with ⟨htrees, hafter⟩ | hapart
    · obtain rfl : trees = same := Option.some.inj htrees
      have heof : after.currentIs .eof = later.currentIs .eof := Sees.sees hafter
      rw [heof]
      refine Or.inl ⟨rfl, ?_⟩
      dsimp only
      split
      · exact C.record (fun _ => SyntaxError.noConfusion) hafter
      · exact hafter
    · refine .apart_of_later hapart ?_ ?_
      · dsimp only
        split
        · exact Enduring.record _ _
        · exact Enduring.refl _
      · dsimp only
        split
        · exact Enduring.record _ _
        · exact Enduring.refl _
  keeps_left := by
    have hinner (power : Power) := left C (inner power) (other power)
    infer_instance
  keeps_right := by
    have hother (power : Power) := right C (inner power) (other power)
    infer_instance

instance : InStep C (Rule.otherArm inner) (Rule.otherArm other) := by
  unfold Rule.otherArm
  infer_instance

instance : InStep C (Rule.alternative inner) (Rule.alternative other) := by
  unfold Rule.alternative
  infer_instance

instance (token : Token) (condition : Option Expr) :
    InStep C (Rule.arms inner token condition) (Rule.arms other token condition) := by
  unfold Rule.arms
  infer_instance

instance (token : Token) : InStep C (Rule.condition inner token) (Rule.condition other token) := by
  unfold Rule.condition
  infer_instance

instance : InStep C (Rule.conditional inner) (Rule.conditional other) := by
  unfold Rule.conditional
  infer_instance

instance (first : ParseM σ α) (second : ParseM τ α) [InStep C first second] (found : List α) :
    InStep C (Rule.listRest first found) (Rule.listRest second found) := by
  have hmore : InStep C (loops.improveWhile (Parser.peekIs .comma) (Rule.onePart first) found)
      (others.improveWhile (Parser.peekIs .comma) (Rule.onePart second) found) :=
    Coupling.RepeatsInStep.improveWhile _ _ (Rule.onePart first) (Rule.onePart second) found
  unfold Rule.listRest
  infer_instance

instance (first : ParseM σ α) (second : ParseM τ α) [InStep C first second] :
    InStep C (Rule.listOf first) (Rule.listOf second) := by
  unfold Rule.listOf
  infer_instance

instance : InStep C (Rule.parameters : ParseM σ (List Ident))
    (Rule.parameters : ParseM τ (List Ident)) := by
  unfold Rule.parameters
  infer_instance

instance : InStep C (Rule.function inner) (Rule.function other) := by
  unfold Rule.function
  infer_instance

instance : InStep C (Rule.arguments inner) (Rule.arguments other) := by
  unfold Rule.arguments
  infer_instance

instance (callee : Expr) : InStep C (Rule.call inner callee) (Rule.call other callee) := by
  unfold Rule.call
  infer_instance

instance (rule : StartRule) : InStep C (Rule.startBy inner rule) (Rule.startBy other rule) := by
  cases rule <;> (unfold Rule.startBy; infer_instance)

instance (left : Expr) (rule : OperatorRule) :
    InStep C (Rule.operatorBy inner left rule) (Rule.operatorBy other left rule) := by
  cases rule <;> (unfold Rule.operatorBy; infer_instance)

instance (left : Expr) : InStep C (Rule.extend inner left) (Rule.extend other left) where
  inStep {state behind} htogether := by
    rw [Rule.extend, Rule.extend, bind_apply, bind_apply, inspect_apply, inspect_apply,
      C.grammar htogether, C.peek htogether]
    dsimp only
    cases behind.grammar.operator behind.peek.kind with
    | none => exact meets (pure left) (pure left) htogether
    | some operator =>
        exact meets (advance >>= fun _ => Rule.operatorBy inner left operator.2)
          (advance >>= fun _ => Rule.operatorBy other left operator.2) htogether
  keeps_left := by
    have hinner (power : Power) := InStep.left C (inner power) (other power)
    infer_instance
  keeps_right := by
    have hother (power : Power) := right C (inner power) (other power)
    infer_instance

instance (power : Power) (left : Expr) :
    InStep C (Rule.absorb inner power left) (Rule.absorb other power left) :=
  Coupling.RepeatsInStep.improveWhile _ _ (Rule.extend inner) (Rule.extend other) left

instance : InStep C (Rule.start inner) (Rule.start other) where
  inStep {state behind} htogether := by
    rw [Rule.start, Rule.start, bind_apply, bind_apply, inspect_apply, inspect_apply,
      C.current htogether]
    dsimp only
    rw [bind_apply, bind_apply, inspect_apply, inspect_apply, C.grammar htogether]
    dsimp only
    cases behind.grammar.startRule behind.current.kind with
    | none =>
        exact meets (fail (.noExpression behind.current.kind))
          (fail (.noExpression behind.current.kind)) htogether
    | some rule => exact meets (Rule.startBy inner rule) (Rule.startBy other rule) htogether
  keeps_left := by
    have hinner (power : Power) := left C (inner power) (other power)
    infer_instance
  keeps_right := by
    have hother (power : Power) := right C (inner power) (other power)
    infer_instance

instance (power : Power) : InStep C (Rule.body inner power) (Rule.body other power) := by
  unfold Rule.body
  infer_instance

end Repetitions

end InStep

/-- What a parser keeps having across every move but those that open an expression, or refuse to,
and close it. -/
class Persistent (holds : Parser σ → Prop) : Prop where
  advance {state : Parser σ} : holds state → holds state.advance
  record {state : Parser σ} {error : SyntaxError} : (∀ limit, error ≠ .nestingTooDeep limit) →
    holds state → holds (state.record error)
  stall {state : Parser σ} : holds state → holds { state with stalled := true }

/-- The same parser twice, as long as something holds of it. -/
def Coupling.twice (holds : Parser σ → Prop) [Persistent holds] : Coupling σ σ where
  together state other := state = other ∧ holds state
  apart _ _ := False
  left _ _ := True
  right _ _ := True
  lasting_left := .trivially
  lasting_right := .trivially
  current htogether := congrArg Parser.current htogether.1
  peek htogether := congrArg Parser.peek htogether.1
  grammar htogether := congrArg Parser.grammar htogether.1
  advance htogether := ⟨congrArg Parser.advance htogether.1, Persistent.advance htogether.2⟩
  record herror htogether :=
    ⟨congrArg (Parser.record _) htogether.1, Persistent.record herror htogether.2⟩
  stall htogether := ⟨by rw [htogether.1], Persistent.stall htogether.2⟩
  ahead htogether _ _ hafter := by rw [htogether.1, hafter.1]
  apart_left := False.elim
  apart_right := False.elim

namespace Coupling.twice

variable {holds : Parser σ → Prop} [Persistent holds]

/-- Nothing has to be known about the way of a parser that is there twice. -/
instance (action : ParseM σ α) : Keeps (Coupling.twice holds).left action :=
  ⟨fun _ => trivial⟩

instance (action : ParseM σ α) : Keeps (Coupling.twice holds).right action :=
  ⟨fun _ => trivial⟩

/-- Actions that stay in step on the same parser are the same from there. -/
theorem eq_of_inStep (first second : ParseM σ α) [InStep (Coupling.twice holds) first second]
    {state : Parser σ} (hstate : holds state) : first state = second state := by
  have htogether : (Coupling.twice holds).together state state := ⟨rfl, hstate⟩
  obtain ⟨hanswer, hafter, -⟩ := (InStep.meets first second htogether).resolve_right id
  exact Prod.ext hanswer hafter

end Coupling.twice

end ExprLang
