/-
Reading comes to an end.  Here the rules are read with repetitions that have no stop of their own: a
repetition goes on for as long as its condition holds, and an expression is read inside another one
whenever a rule asks for it.  Only how many rounds there may be, and how many readings inside one
another, is counted, and there is no result where the count runs out.  Neither the tokens nor the
nesting bounds both: a repetition ends because each round moves on from a token, while an expression
may be read inside another one without moving on, up to the limit on open expressions.  The end of
input has to be no operator, as a repetition that takes it for one need not end.
-/
import ExprLang.Proofs.Gathering
import ExprLang.Proofs.Nesting
import ExprLang.Proofs.Progress

namespace ExprLang

variable {σ τ α β : Type} [TokenSupply σ] [TokenSupply τ]

namespace ParseM

/-- Gives up for good: what was counted has run out. -/
def stall : ParseM σ α := fun state =>
  (none, { state with stalled := true })

/-- Improves an answer by a step for as long as a condition holds of the parser, with so many rounds
at most. -/
def improveUpTo (more : Parser σ → Bool) (step : α → ParseM σ α) : Nat → α → ParseM σ α
  | 0, start => do
      if ← inspect more then stall else pure start
  | rounds + 1, start => do
      if ← inspect more then
        let better ← step start
        improveUpTo more step rounds better
      else
        pure start

/-- The answers of an action that is run again and again, with one advance behind each run, for as
long as a condition holds of the parser, with so many rounds at most. -/
def answersUpTo (more : Parser σ → Bool) (action : ParseM σ α) :
    Nat → Parser σ → List α × Parser σ
  | 0, state => ([], if more state then { state with stalled := true } else state)
  | rounds + 1, state =>
      if more state then
        let (result, behind) := action state
        let (later, final) := answersUpTo more action rounds behind.advance
        (result.toList ++ later, final)
      else ([], state)

section Rounds

variable {more : Parser σ → Bool} {step : α → ParseM σ α} {start : α} {action : ParseM σ α}
  {rounds : Nat} {state : Parser σ}

omit [TokenSupply σ] in
theorem improveUpTo_of_not (hmore : more state = false) :
    improveUpTo more step rounds start state = (some start, state) := by
  cases rounds <;>
    (rw [improveUpTo, bind_apply, inspect_apply]
     dsimp only
     rw [hmore]
     rfl)

omit [TokenSupply σ] in
theorem improveUpTo_zero (hmore : more state = true) :
    improveUpTo more step 0 start state = (none, { state with stalled := true }) := by
  rw [improveUpTo, bind_apply, inspect_apply]
  dsimp only
  rw [if_pos hmore]
  rfl

omit [TokenSupply σ] in
theorem improveUpTo_succ (hmore : more state = true) :
    improveUpTo more step (rounds + 1) start state =
      (step start >>= improveUpTo more step rounds) state := by
  rw [improveUpTo, bind_apply, inspect_apply]
  dsimp only
  rw [if_pos hmore]

theorem answersUpTo_of_not (hmore : more state = false) :
    answersUpTo more action rounds state = ([], state) := by
  cases rounds <;> (rw [answersUpTo, hmore]; rfl)

theorem answersUpTo_zero (hmore : more state = true) :
    answersUpTo more action 0 state = ([], { state with stalled := true }) := by
  rw [answersUpTo, if_pos hmore]

theorem answersUpTo_succ (hmore : more state = true) :
    answersUpTo more action (rounds + 1) state =
      ((action state).1.toList ++ (answersUpTo more action rounds (action state).2.advance).1,
        (answersUpTo more action rounds (action state).2.advance).2) := by
  rw [answersUpTo, if_pos hmore]

/-- Each round has one answer at most. -/
theorem length_answersUpTo_le :
    (answersUpTo more action rounds state).1.length ≤ rounds := by
  induction rounds generalizing state with
  | zero => simp [answersUpTo]
  | succ rounds ih =>
      cases hmore : more state with
      | false => simp [answersUpTo_of_not hmore]
      | true =>
          have hone : (action state).1.toList.length ≤ 1 := by
            cases (action state).1 <;> simp
          rw [answersUpTo_succ hmore, List.length_append]
          have hlater := @ih (action state).2.advance
          omega

end Rounds

end ParseM

/-- Repetitions that only their conditions end, with so many rounds each at most. -/
@[reducible]
def Repetition.upTo (rounds : Nat) : Repetition σ where
  improveWhile more step := ParseM.improveUpTo more step rounds
  answersWhile more action state := ParseM.answersUpTo more action rounds state

namespace Rule

/-- Reads an expression of a given power, with at most so many readings of expressions inside one
another, itself included, and so many rounds of each repetition.  Where the readings run out the
parser has stalled. -/
def expressionUpTo (rounds : Nat) : Nat → Power → ParseM σ Expr
  | 0, _ => ParseM.stall
  | calls + 1, power =>
      let _ : Repetition σ := .upTo rounds
      ParseM.nested (body (expressionUpTo rounds calls) power)

theorem expressionUpTo_succ (rounds calls : Nat) (power : Power) :
    (expressionUpTo rounds (calls + 1) power : ParseM σ Expr) =
      ParseM.nested (@body σ _ (.upTo rounds) (expressionUpTo rounds calls) power) :=
  rfl

theorem absorb_upTo (inner : Power → ParseM σ Expr) (power : Power) (left : Expr) (rounds : Nat) :
    @absorb σ _ (.upTo rounds) inner power left =
      ParseM.improveUpTo (continues power) (@extend σ _ (.upTo rounds) inner) rounds left :=
  rfl

end Rule

namespace Operation

/-- An operation with so many readings of expressions inside one another and so many rounds of a
repetition at most. -/
def runUpTo (calls rounds : Nat) (operation : Operation) (state : Parser σ) : Outcome × Parser σ :=
  let _ : Repetition σ := .upTo rounds
  operation.runWith (Rule.expressionUpTo rounds calls) state

theorem runUpTo_expression (calls rounds : Nat) (power : Power) (state : Parser σ) :
    (Operation.expression power).runUpTo calls rounds state =
      readExpression (Rule.expressionUpTo rounds calls power) state :=
  rfl

/-- What an operation answers, and the parser behind it, with so many readings of expressions inside
one another and so many rounds of a repetition at most.  There is no result where they run out, nor
from a parser that has stalled before, as the program never comes to one. -/
def runBounded (calls rounds : Nat) (operation : Operation) (state : Parser σ) :
    Option (Outcome × Parser σ) :=
  let (outcome, after) := operation.runUpTo calls rounds state
  if after.stalled then none else some (outcome, after)

end Operation

section Laws

open ParseM

variable {R : Parser σ → Parser σ → Prop} [Lasting R]

instance : Keeps R (stall : ParseM σ α) :=
  ⟨Lasting.stall⟩

instance (more : Parser σ → Bool) (step : α → ParseM σ α) [∀ value, Keeps R (step value)]
    (rounds : Nat) (start : α) : Keeps R (improveUpTo more step rounds start) := by
  induction rounds generalizing start with
  | zero => unfold improveUpTo; infer_instance
  | succ rounds ih => unfold improveUpTo; infer_instance

theorem Keeps.answersUpTo (more : Parser σ → Bool) (action : ParseM σ α) [Keeps R action]
    (rounds : Nat) (state : Parser σ) : R state (answersUpTo more action rounds state).2 := by
  induction rounds generalizing state with
  | zero =>
      unfold ParseM.answersUpTo
      dsimp only
      split
      · exact Lasting.stall state
      · exact Enduring.refl state
  | succ rounds ih =>
      cases hmore : more state with
      | false =>
          rw [answersUpTo_of_not hmore]
          exact Enduring.refl state
      | true =>
          rw [answersUpTo_succ hmore]
          exact Enduring.trans (Enduring.trans (Keeps.after R action state) (Enduring.advance _))
            (ih _)

instance (rounds : Nat) : (Repetition.upTo rounds : Repetition σ).Lawful where
  improveWhile more step start :=
    inferInstanceAs (Keeps _ (improveUpTo more step rounds start))
  answersWhile more action := Keeps.answersUpTo more action rounds

instance (rounds calls : Nat) (power : Power) :
    Keeps R (Rule.expressionUpTo rounds calls power : ParseM σ Expr) := by
  induction calls generalizing power with
  | zero => exact inferInstanceAs (Keeps R stall)
  | succ calls ih =>
      rw [Rule.expressionUpTo_succ]
      infer_instance

variable {C : Coupling σ τ}

instance : InStep C (stall : ParseM σ α) (stall : ParseM τ α) where
  inStep htogether := Or.inl ⟨rfl, C.stall htogether⟩

/-- Repetitions with as many rounds stay in step. -/
instance (more : Parser σ → Bool) (goes : Parser τ → Bool) (step : α → ParseM σ α)
    (other : α → ParseM τ α) (rounds : Nat) (start : α) [Sees C more goes]
    [∀ value, InStep C (step value) (other value)] :
    InStep C (improveUpTo more step rounds start) (improveUpTo goes other rounds start) := by
  induction rounds generalizing start with
  | zero => unfold improveUpTo; infer_instance
  | succ rounds ih => unfold improveUpTo; infer_instance

instance (more : Parser σ → Bool) (goes : Parser τ → Bool) (first : ParseM σ α)
    (second : ParseM τ α) (rounds : Nat) [Sees C more goes] [InStep C first second] :
    InStep C (always (answersUpTo more first rounds))
      (always (answersUpTo goes second rounds)) := by
  have hleft := InStep.left C first second
  have hright := InStep.right C first second
  refine ⟨fun {state behind} htogether => ?_, ⟨Keeps.answersUpTo more first rounds⟩,
    ⟨Keeps.answersUpTo goes second rounds⟩⟩
  induction rounds generalizing state behind with
  | zero =>
      have hsame : more state = goes behind := Sees.sees htogether
      rw [always_apply, always_apply, answersUpTo, answersUpTo, hsame]
      dsimp only
      split
      · exact Or.inl ⟨rfl, C.stall htogether⟩
      · exact Or.inl ⟨rfl, htogether⟩
  | succ rounds ih =>
      have hsame : more state = goes behind := Sees.sees htogether
      rw [always_apply, always_apply]
      cases hmore : more state with
      | false =>
          rw [answersUpTo_of_not hmore, answersUpTo_of_not (hsame ▸ hmore)]
          exact Or.inl ⟨rfl, htogether⟩
      | true =>
          rw [answersUpTo_succ hmore, answersUpTo_succ (hsame ▸ hmore)]
          rcases InStep.meets first second htogether with ⟨hanswer, hafter⟩ | hapart
          · rcases ih (C.advance hafter) with ⟨hlater, hlast⟩ | hapart
            · have hlater := Option.some.inj hlater
              refine Or.inl ⟨?_, hlast⟩
              dsimp only
              rw [hanswer, hlater]
            · exact Or.inr hapart
          · exact .apart_of_later hapart
              (Enduring.trans (Enduring.advance _) (Keeps.answersUpTo more first rounds _))
              (Enduring.trans (Enduring.advance _) (Keeps.answersUpTo goes second rounds _))

instance (rounds : Nat) : C.RepeatsInStep (.upTo rounds) (.upTo rounds) where
  improveWhile more goes step other start _ _ :=
    inferInstanceAs (InStep C (improveUpTo more step rounds start)
      (improveUpTo goes other rounds start))
  answersWhile more goes first second _ _ :=
    inferInstanceAs (InStep C (always (answersUpTo more first rounds))
      (always (answersUpTo goes second rounds)))

end Laws

/-- A parser that has stalled does not recover. -/
instance : Irrevocable (fun state : Parser σ => state.stalled = true) where
  advance := id
  record _ := id
  stall _ := rfl
  enter {state} hstalled := by
    rw [Parser.enter]
    split
    · exact hstalled
    · exact hstalled
  leave := id

/-- If the earlier parser has stalled, so has the later one. -/
abbrev Stalls : Parser σ → Parser σ → Prop :=
  Loses fun state => state.stalled = true

/-- So many readings of expressions inside one another are more than there is room for, and so many
rounds are more than there are tokens ahead. -/
structure Parser.Affords (calls rounds : Nat) (state : Parser σ) : Prop where
  calls : state.limit - state.depth < calls
  rounds : state.ahead < rounds

namespace Parser.Affords

variable {calls rounds : Nat} {state : Parser σ}

theorem advance (haffords : state.Affords calls rounds) : state.advance.Affords calls rounds where
  calls := haffords.calls
  rounds := Nat.lt_of_le_of_lt (ahead_advance_le state) haffords.rounds

theorem record {error : SyntaxError} (haffords : state.Affords calls rounds) :
    (state.record error).Affords calls rounds :=
  ⟨haffords.calls, haffords.rounds⟩

theorem stall (haffords : state.Affords calls rounds) :
    Affords calls rounds { state with stalled := true } :=
  ⟨haffords.calls, haffords.rounds⟩

theorem finish {count : Nat} (haffords : state.Affords calls rounds) :
    (state.finish count).Affords calls rounds :=
  ⟨haffords.calls, haffords.rounds⟩

theorem opened (haffords : state.Affords (calls + 1) rounds) (hopen : state.depth < state.limit) :
    state.opened.Affords calls rounds where
  calls := by
    have hcalls := haffords.calls
    simp only [Parser.opened]
    omega
  rounds := haffords.rounds

theorem leave (haffords : state.Affords calls rounds) : state.leave.Affords (calls + 1) rounds where
  calls := by
    have hcalls := haffords.calls
    simp only [Parser.leave]
    omega
  rounds := haffords.rounds

end Parser.Affords

/-- A parser worked with a budget, beside the same one with repetitions that may be given up.  They
part where the second one stalls, and, if the budget may be `short`, where it runs out; if not, the
budget is afforded all the way. -/
def Coupling.spending (σ : Type) [TokenSupply σ] (short : Prop) (calls rounds : Nat) :
    Coupling σ σ where
  together state other := state = other ∧ (short ∨ state.Affords calls rounds)
  apart state other := other.stalled = true ∨ short ∧ state.stalled = true
  left := Stalls
  right := Stalls
  lasting_left := inferInstance
  lasting_right := inferInstance
  current htogether := congrArg Parser.current htogether.1
  peek htogether := congrArg Parser.peek htogether.1
  grammar htogether := congrArg Parser.grammar htogether.1
  advance htogether :=
    ⟨congrArg Parser.advance htogether.1, htogether.2.imp_right Parser.Affords.advance⟩
  record _ htogether :=
    ⟨congrArg (Parser.record _) htogether.1, htogether.2.imp_right Parser.Affords.record⟩
  stall htogether := ⟨by rw [htogether.1], htogether.2.imp_right Parser.Affords.stall⟩
  ahead htogether _ _ hafter := by rw [htogether.1, hafter.1]
  apart_left hapart hleft := hapart.imp_right (And.imp_right hleft)
  apart_right hapart hright := hapart.imp_left hright

namespace Coupling.spending

open ParseM

variable {short : Prop} {calls rounds : Nat}

/-- With more rounds than tokens ahead a repetition does what it does where it may be given up,
unless it is given up there. -/
theorem improveUpTo_meets (more goes : Parser σ → Bool) (step other : α → ParseM σ α)
    [Sees (.spending σ short calls rounds) more goes]
    [∀ value, InStep (.spending σ short calls rounds) (step value) (other value)] (count : Nat)
    (start : α) {state : Parser σ} (hfew : short ∨ state.ahead < count)
    (htogether : (Coupling.spending σ short calls rounds).together state state) :
    (Coupling.spending σ short calls rounds).Meets (improveUpTo more step count start state)
      (improveWhile goes other start state) := by
  have hleft (value : α) := InStep.left (.spending σ short calls rounds) (step value) (other value)
  have hright (value : α) :=
    InStep.right (.spending σ short calls rounds) (step value) (other value)
  have hdone (count : Nat) (start : α) {state : Parser σ} (hmore : more state = false)
      (htogether : (Coupling.spending σ short calls rounds).together state state) :
      (Coupling.spending σ short calls rounds).Meets (improveUpTo more step count start state)
        (improveWhile goes other start state) := by
    rw [improveUpTo_of_not hmore, improveWhile_of_not (Sees.same more goes htogether ▸ hmore)]
    exact Or.inl ⟨rfl, htogether⟩
  induction count generalizing start state with
  | zero =>
      cases hmore : more state with
      | false => exact hdone 0 start hmore htogether
      | true =>
          rw [improveUpTo_zero hmore]
          exact Or.inr (Or.inr ⟨hfew.resolve_right (Nat.not_lt_zero _), rfl⟩)
  | succ count ih =>
      cases hmore : more state with
      | false => exact hdone (count + 1) start hmore htogether
      | true =>
          have hgoes : goes state = true := Sees.same more goes htogether ▸ hmore
          rw [improveUpTo_succ hmore]
          rcases InStep.meets (step start) (other start) htogether with ⟨hanswer, hafter⟩ | hapart
          · rcases hfirst : step start state with ⟨value, after⟩
            rcases hsecond : other start state with ⟨same, later⟩
            rw [hfirst, hsecond] at hanswer hafter
            obtain ⟨rfl, hafter⟩ := hafter
            obtain rfl : value = same := hanswer
            cases value with
            | none =>
                rw [bind_of_none hfirst, improveWhile_of_none hgoes hsecond]
                exact Or.inl ⟨rfl, rfl, hafter⟩
            | some better =>
                by_cases hless : after.ahead < state.ahead
                · rw [bind_of_some hfirst, improveWhile_of_lt hgoes hsecond hless]
                  exact ih better (hfew.imp_right fun _ => by omega) ⟨rfl, hafter⟩
                · rw [improveWhile_of_not_lt hgoes hsecond hless]
                  exact Or.inr (Or.inl rfl)
          · exact .apart_of_later hapart (Keeps.bind_rest (step start) _ state)
              (Keeps.improveWhile_rest hgoes)

/-- The same for a repetition that collects answers. -/
theorem answersUpTo_meets (more goes : Parser σ → Bool) (first second : ParseM σ α)
    [Sees (.spending σ short calls rounds) more goes]
    [InStep (.spending σ short calls rounds) first second] (count : Nat) {state : Parser σ}
    (hfew : short ∨ state.ahead < count)
    (htogether : (Coupling.spending σ short calls rounds).together state state) :
    (Coupling.spending σ short calls rounds).Meets (always (answersUpTo more first count) state)
      (always (answersWhile goes second) state) := by
  have hleft := InStep.left (.spending σ short calls rounds) first second
  have hright := InStep.right (.spending σ short calls rounds) first second
  have hdone (count : Nat) {state : Parser σ} (hmore : more state = false)
      (htogether : (Coupling.spending σ short calls rounds).together state state) :
      (Coupling.spending σ short calls rounds).Meets (always (answersUpTo more first count) state)
        (always (answersWhile goes second) state) := by
    rw [always_apply, always_apply, answersUpTo_of_not hmore,
      answersWhile_of_not (Sees.same more goes htogether ▸ hmore)]
    exact Or.inl ⟨rfl, htogether⟩
  induction count generalizing state with
  | zero =>
      cases hmore : more state with
      | false => exact hdone 0 hmore htogether
      | true =>
          rw [always_apply, answersUpTo_zero hmore]
          exact Or.inr (Or.inr ⟨hfew.resolve_right (Nat.not_lt_zero _), rfl⟩)
  | succ count ih =>
      cases hmore : more state with
      | false => exact hdone (count + 1) hmore htogether
      | true =>
          have hgoes : goes state = true := Sees.same more goes htogether ▸ hmore
          rw [always_apply, always_apply, answersUpTo_succ hmore]
          rcases InStep.meets first second htogether with ⟨hanswer, hafter⟩ | hapart
          · rcases hfirst : first state with ⟨value, after⟩
            rcases hsecond : second state with ⟨same, later⟩
            rw [hfirst, hsecond] at hanswer hafter
            obtain ⟨rfl, hafter⟩ := hafter
            obtain rfl : value = same := hanswer
            by_cases hless : after.advance.ahead < state.ahead
            · have hfew : short ∨ after.advance.ahead < count := hfew.imp_right fun _ => by omega
              rw [answersWhile_of_lt hgoes hsecond hless]
              rcases ih hfew ⟨rfl, hafter.imp_right Parser.Affords.advance⟩ with
                ⟨hlater, hlast⟩ | hapart
              · have hlater := Option.some.inj hlater
                refine Or.inl ⟨?_, hlast⟩
                dsimp only
                rw [hlater]
              · exact Or.inr hapart
            · rw [answersWhile_of_not_lt hgoes hsecond hless]
              exact Or.inr (Or.inl rfl)
          · exact .apart_of_later hapart
              (Enduring.trans (Enduring.advance _) (Keeps.answersUpTo more first count _))
              (Keeps.answersWhile_rest hgoes)

instance : (Coupling.spending σ short calls rounds).RepeatsInStep (.upTo rounds) .guarded where
  improveWhile {α} more goes step other start _ _ := by
    have hleft (value : α) :=
      InStep.left (.spending σ short calls rounds) (step value) (other value)
    have hright (value : α) :=
      InStep.right (.spending σ short calls rounds) (step value) (other value)
    refine ⟨?_, inferInstance, inferInstance⟩
    rintro state _ ⟨rfl, hstate⟩
    exact improveUpTo_meets more goes step other rounds start
      (hstate.imp_right Parser.Affords.rounds) ⟨rfl, hstate⟩
  answersWhile more goes first second _ _ := by
    have hleft := InStep.left (.spending σ short calls rounds) first second
    have hright := InStep.right (.spending σ short calls rounds) first second
    refine ⟨?_, ⟨Keeps.answersUpTo more first rounds⟩, ⟨Keeps.answersWhile goes second⟩⟩
    rintro state _ ⟨rfl, hstate⟩
    exact answersUpTo_meets more goes first second rounds
      (hstate.imp_right Parser.Affords.rounds) ⟨rfl, hstate⟩

/-- Every expression inside another one takes one of the places that the limit leaves, so that they
do not run out. -/
instance (power : Power) :
    InStep (.spending σ short calls rounds) (Rule.expressionUpTo rounds calls power)
      (expression power) where
  inStep := by
    induction calls generalizing power with
    | zero =>
        rintro state _ ⟨rfl, hstate⟩
        exact Or.inr (Or.inr ⟨hstate.resolve_right fun haffords =>
          Nat.not_lt_zero _ haffords.calls, rfl⟩)
    | succ calls ih =>
        have hinner (power : Power) : InStep (.spending σ short calls rounds)
            (Rule.expressionUpTo rounds calls power) (expression power) := { inStep := ih power }
        rintro state _ ⟨rfl, hstate⟩
        rw [Rule.expressionUpTo_succ, expression_eq_nested]
        by_cases hopen : state.depth < state.limit
        · rw [nested_eq_opened _ hopen, nested_eq_opened _ hopen, opened_apply, opened_apply]
          have hinside : (Coupling.spending σ short calls rounds).together state.opened
              state.opened := ⟨rfl, hstate.imp_right fun haffords => haffords.opened hopen⟩
          rcases InStep.meets
            (@Rule.body σ _ (.upTo rounds) (Rule.expressionUpTo rounds calls) power)
            (Rule.body expression power) hinside with ⟨hanswer, hsame, hafter⟩ | hapart
          · exact Or.inl ⟨hanswer, congrArg Parser.leave hsame,
              hafter.imp_right Parser.Affords.leave⟩
          · exact Or.inr hapart
        · rw [nested_eq_record _ hopen, nested_eq_record _ hopen]
          exact Or.inl ⟨rfl, rfl, hstate.imp_right Parser.Affords.record⟩

end Coupling.spending

namespace Operation

variable {calls rounds : Nat} {operation : Operation} {state : Parser σ}

/-- An operation that reads nothing needs no budget. -/
theorem runUpTo_of_not_parses (hparses : operation.parses ≠ true) :
    operation.runUpTo calls rounds state = operation.run state := by
  cases operation <;> first | rfl | exact absurd rfl hparses

/-- An operation within a budget is the operation itself, or else the budget was short and has run
out. -/
theorem runUpTo_eq_or (short : Prop) (hstate : short ∨ state.Affords calls rounds)
    (hstalled : (operation.run state).2.stalled = false) :
    operation.runUpTo calls rounds state = operation.run state ∨
      short ∧ (operation.runUpTo calls rounds state).2.stalled = true := by
  by_cases hparses : operation.parses = true
  · have hmeets : ((operation.runUpTo calls rounds state).1 =
          (operation.runWith ExprLang.expression state).1 ∧
        (Coupling.spending σ short calls rounds).together
          (operation.runUpTo calls rounds state).2
          (operation.runWith ExprLang.expression state).2) ∨
        (Coupling.spending σ short calls rounds).apart (operation.runUpTo calls rounds state).2
          (operation.runWith ExprLang.expression state).2 :=
      runWith_inStep (C := .spending σ short calls rounds) (Rule.expressionUpTo rounds calls)
        ExprLang.expression (fun count _ _ htogether => ⟨congrArg (Parser.finish count) htogether.1,
          htogether.2.imp_right Parser.Affords.finish⟩)
        (fun _ _ _ _ => id) hparses ⟨rfl, hstate⟩
    rw [runWith_expression] at hmeets
    rcases hmeets with ⟨hanswer, hsame, -⟩ | hrun | hshort
    · exact Or.inl (Prod.ext hanswer hsame)
    · rw [hstalled] at hrun
      contradiction
    · exact Or.inr hshort
  · exact Or.inl (runUpTo_of_not_parses hparses)

/-- Where it is known what comes of an operation within a budget, so is its result. -/
theorem runBounded_of_runUpTo {result : Outcome × Parser σ}
    (hresult : operation.runUpTo calls rounds state = result)
    (hstalled : result.2.stalled = false) :
    operation.runBounded calls rounds state = some result := by
  rw [runBounded, hresult]
  exact if_neg (by rw [hstalled]; decide)

theorem runBounded_eq_none_iff :
    operation.runBounded calls rounds state = none ↔
      (operation.runUpTo calls rounds state).2.stalled = true := by
  rw [runBounded]
  dsimp only
  split <;> simp_all

/-- A budget that is afforded is enough for an operation that does not stall. -/
theorem runBounded_eq_some (haffords : state.Affords calls rounds)
    (hstalled : (operation.run state).2.stalled = false) :
    operation.runBounded calls rounds state = some (operation.run state) := by
  rcases runUpTo_eq_or False (Or.inr haffords) hstalled with hsame | ⟨hnever, -⟩
  · exact runBounded_of_runUpTo hsame hstalled
  · exact hnever.elim

/-- Whatever the budget for an operation that does not stall, there is no result or that of the
operation. -/
theorem runBounded_eq_none_or (calls rounds : Nat)
    (hstalled : (operation.run state).2.stalled = false) :
    operation.runBounded calls rounds state = none ∨
      operation.runBounded calls rounds state = some (operation.run state) := by
  rcases runUpTo_eq_or True (Or.inl trivial) hstalled with hsame | ⟨-, hspent⟩
  · exact Or.inr (runBounded_of_runUpTo hsame hstalled)
  · exact Or.inl (runBounded_eq_none_iff.2 hspent)

end Operation

section Short

open ParseM

/-- So many expressions are open, and no more than some number have ever been. -/
def Parser.Shallow (depth most : Nat) (state : Parser σ) : Prop :=
  state.depth = depth ∧ state.peak ≤ most

instance (depth most : Nat) : Persistent (@Parser.Shallow σ depth most) where
  advance := id
  record _ := id
  stall := id

/-- An expression has no more of them open inside one another than there may be readings. -/
theorem Rule.expressionUpTo_shallow (rounds : Nat) {calls depth most : Nat}
    (hmost : depth + calls ≤ most) (power : Power) :
    InStep (.twice (Parser.Shallow depth most))
      (expressionUpTo rounds calls power : ParseM σ Expr) (expressionUpTo rounds calls power) where
  inStep := by
    induction calls generalizing depth power with
    | zero =>
        rintro state _ ⟨rfl, hshallow⟩
        exact Or.inl ⟨rfl, rfl, hshallow⟩
    | succ calls ih =>
        have hinner (power : Power) : InStep (.twice (Parser.Shallow (depth + 1) most))
            (expressionUpTo rounds calls power : ParseM σ Expr)
            (expressionUpTo rounds calls power) := { inStep := ih (by omega) power }
        rintro state _ ⟨rfl, hdepth, hpeak⟩
        refine Or.inl ⟨rfl, rfl, ?_⟩
        rw [expressionUpTo_succ]
        by_cases hopen : state.depth < state.limit
        · rw [nested_eq_opened _ hopen, opened_apply]
          have hinside : (Coupling.twice (Parser.Shallow (depth + 1) most)).together state.opened
              state.opened := ⟨rfl, congrArg (· + 1) hdepth, by simp only [Parser.opened]; omega⟩
          obtain ⟨-, -, hafter, hmost⟩ := (InStep.meets
            (@body σ _ (.upTo rounds) (expressionUpTo rounds calls) power)
            (@body σ _ (.upTo rounds) (expressionUpTo rounds calls) power)
            hinside).resolve_right id
          exact ⟨by simp only [Parser.leave]; omega, hmost⟩
        · rw [nested_eq_record _ hopen]
          exact ⟨hdepth, hpeak⟩

end Short

namespace Operation

variable {calls rounds : Nat} {operation : Operation} {state : Parser σ}

/-- An operation within a budget has no more expressions open inside one another than there may be
readings. -/
theorem peak_runUpTo_le (hparses : operation.parses = true) :
    (operation.runUpTo calls rounds state).2.peak ≤ max state.peak (state.depth + calls) := by
  have hinner (power : Power) := Rule.expressionUpTo_shallow (σ := σ) rounds
    (Nat.le_max_right state.peak (state.depth + calls)) power
  have hstart : (Coupling.twice (Parser.Shallow state.depth
      (max state.peak (state.depth + calls)))).together state state :=
    ⟨rfl, rfl, Nat.le_max_left _ _⟩
  have hmeets : (_ ∧ (Coupling.twice (Parser.Shallow state.depth
      (max state.peak (state.depth + calls)))).together (operation.runUpTo calls rounds state).2
        (operation.runUpTo calls rounds state).2) ∨ False :=
    runWith_inStep (C := .twice _) (Rule.expressionUpTo rounds calls)
      (Rule.expressionUpTo rounds calls)
      (fun count _ _ htogether => ⟨congrArg (Parser.finish count) htogether.1, htogether.2⟩)
      (fun _ _ _ _ => id) hparses hstart
  exact (hmeets.resolve_right id).2.2.2

/-- With fewer readings than expressions are open inside one another there is no result. -/
theorem runBounded_eq_none_of_peak (hparses : operation.parses = true)
    (hstalled : (operation.run state).2.stalled = false)
    (hdeep : max state.peak (state.depth + calls) < (operation.run state).2.peak) :
    operation.runBounded calls rounds state = none := by
  rcases runUpTo_eq_or True (Or.inl trivial) hstalled with hsame | ⟨-, hspent⟩
  · have hpeak := @peak_runUpTo_le σ _ calls rounds operation state hparses
    rw [hsame] at hpeak
    exact absurd hdeep (Nat.not_lt.2 hpeak)
  · exact runBounded_eq_none_iff.2 hspent

/-- A program within a budget has no more statements than there may be rounds. -/
theorem length_runUpTo_le {program : Program}
    (hprogram : (Operation.program.runUpTo calls rounds state).1 = .program program) :
    program.statements.length ≤ rounds := by
  obtain rfl := Outcome.program.inj hprogram
  exact ParseM.length_answersUpTo_le

/-- With fewer rounds than there are statements in the program there is no result. -/
theorem runBounded_eq_none_of_statements {program : Program}
    (hprogram : (Operation.program.run state).1 = .program program)
    (hstalled : (Operation.program.run state).2.stalled = false)
    (hmany : rounds < program.statements.length) :
    Operation.program.runBounded calls rounds state = none := by
  rcases runUpTo_eq_or True (Or.inl trivial) hstalled with hsame | ⟨-, hspent⟩
  · rw [← hsame] at hprogram
    exact absurd hmany (Nat.not_lt.2 (length_runUpTo_le hprogram))
  · exact runBounded_eq_none_iff.2 hspent

end Operation

/-- No operation of a parser that can be reached leaves it stalled, as long as the end of input is
no operator. -/
theorem Parser.Reachable.stalled_run {state : Parser Lexer} (hreachable : state.Reachable)
    (hends : state.grammar.operator .eof = none) (operation : Operation) :
    (operation.run state).2.stalled = false := by
  have hunstalled := hreachable.unstalled hends
  by_cases hparses : operation.parses = true
  · exact (operation.run_unstalled hparses hunstalled).unstalled
  · exact (Operation.run_worked hparses state).stalled_eq.trans hunstalled.unstalled

/-- Too small a budget leaves an operation of such a parser without a result, and never with another
one: less than what `operation_ends` asks for may do, but not fewer readings inside one another than
there are expressions open at once. -/
theorem runBounded_of_reachable (operation : Operation) {state : Parser Lexer}
    (hreachable : state.Reachable) (hends : state.grammar.operator .eof = none)
    (calls rounds : Nat) :
    (operation.runBounded calls rounds state = none ∨
        operation.runBounded calls rounds state = some (operation.run state)) ∧
      (operation.parses = true →
        max state.peak (state.depth + calls) < (operation.run state).2.peak →
        operation.runBounded calls rounds state = none) :=
  have hstalled := hreachable.stalled_run hends operation
  ⟨operation.runBounded_eq_none_or calls rounds hstalled,
    fun hparses => operation.runBounded_eq_none_of_peak hparses hstalled⟩

/-- Every operation ends, whatever tokens the parser is at, whatever rules have been put into its
grammar and however it was worked before, as long as the end of input is no operator.  Let
repetitions go on for as long as their conditions hold, and let expressions be read inside one
another without end: one reading inside another more than there is room for is enough, and so is one
round more than there are tokens ahead. -/
theorem operation_ends (operation : Operation) {state : Parser Lexer}
    (hreachable : state.Reachable) (hends : state.grammar.operator .eof = none) {calls rounds : Nat}
    (hcalls : maxNesting - state.depth < calls) (hrounds : state.ahead < rounds) :
    operation.runBounded calls rounds state = some (operation.run state) := by
  have hlimit := hreachable.withinBounds.limit
  exact operation.runBounded_eq_some ⟨by rwa [hlimit], hrounds⟩
    (hreachable.stalled_run hends operation)

/-- At the end of input, where each end of input is a prefix operator. -/
def prefixedEnd : Parser Lexer :=
  ((Operation.setStart .eof .unary).run (.ofSupply (.ofSource "") maxNesting)).2

/-- Nothing is ahead of the parser and each operand is read inside another one, up to the limit.
One reading inside another fewer would not do. -/
theorem operation_ends_prefixed :
    prefixedEnd.Reachable ∧ prefixedEnd.grammar.operator .eof = none ∧ prefixedEnd.depth = 0 ∧
      prefixedEnd.ahead = 0 ∧
      (Operation.expression .lowest).runBounded 257 1 prefixedEnd =
        some ((Operation.expression .lowest).run prefixedEnd) ∧
      ((Operation.expression .lowest).runBounded 256 1 prefixedEnd).isNone = true ∧
      ((Operation.expression .lowest).run prefixedEnd).2.errors.toList = [.nestingTooDeep 256] := by
  have hreachable : prefixedEnd.Reachable := .run (.setStart .eof .unary) (.new _)
  have hahead : prefixedEnd.ahead = 0 := by decide +kernel
  exact ⟨hreachable, rfl, rfl, hahead,
    operation_ends (.expression .lowest) hreachable rfl (by decide) (by rw [hahead]; decide),
    by decide +kernel, by decide +kernel⟩

section Endless

variable {σ : Type} [TokenSupply σ]

/-- The parser is at the end of input, which the grammar takes both for a name and for an operator
between two operands. -/
structure Parser.Endless (strength : Power) (state : Parser σ) : Prop where
  left : state.HasLeft []
  start : state.grammar.startRule .eof = some .ident
  operator : state.grammar.operator .eof = some (strength, .binary)

/-- Two settings make a parser with nothing left such a one. -/
theorem Parser.HasLeft.endless {state : Parser σ} (hleft : state.HasLeft []) (strength : Power) :
    ((Operation.setOperator .eof strength .binary).run
      ((Operation.setStart .eof .ident).run state).2).2.Endless strength :=
  ⟨hleft.congr ⟨rfl, rfl, rfl⟩, rfl, rfl⟩

namespace Parser.Endless

open ParseM

variable {strength power : Power} {state : Parser σ} {calls rounds : Nat}
  (hstate : state.Endless strength)
include hstate

theorem current_kind : state.current.kind = .eof := by
  rw [hstate.left.faces.current]
  rfl

theorem peek_kind : state.peek.kind = .eof := by
  rw [hstate.left.faces.awaits.peek]
  rfl

theorem advance : state.advance.Endless strength :=
  ⟨hstate.left.advance, hstate.start, hstate.operator⟩

theorem opened : state.opened.Endless strength :=
  ⟨hstate.left.congr ⟨rfl, rfl, rfl⟩, hstate.start, hstate.operator⟩

theorem leave : state.leave.Endless strength :=
  ⟨hstate.left.congr ⟨rfl, rfl, rfl⟩, hstate.start, hstate.operator⟩

theorem power_eof : state.grammar.power .eof = strength := by
  rw [Grammar.power, hstate.operator]

theorem continues_eq (power : Power) : Rule.continues power state = decide (power < strength) := by
  simp [Rule.continues, peekIs, peekPower, hstate.peek_kind, hstate.power_eof]

/-- An expression starts with the end of input as its name. -/
theorem body_eq {loops : Repetition σ} (inner : Power → ParseM σ Expr) (power : Power) :
    Rule.body inner power state = Rule.absorb inner power (.ident state.currentIdent) state := by
  have hstart : Rule.start inner state = (some (.ident state.currentIdent), state) := by
    rw [Rule.start, bind_apply, inspect_apply]
    dsimp only
    rw [bind_apply, inspect_apply, hstate.current_kind, hstate.start]
    rfl
  rw [Rule.body, bind_of_some hstart]

/-- Going on means to take the end of input as an operator, with the next one in front of its
operand. -/
theorem extend_eq {loops : Repetition σ} (inner : Power → ParseM σ Expr) (left : Expr) :
    Rule.extend inner left state =
      (inner strength >>= fun right => pure (.binary state.advance.current
        state.advance.current.lexeme left right)) state.advance.advance := by
  have hbinary : Rule.extend inner left state = Rule.binary inner left state.advance := by
    rw [Rule.extend, bind_apply, inspect_apply, hstate.peek_kind, hstate.operator]
    rfl
  have hpower : state.advance.currentPower = strength := by
    rw [currentPower, hstate.advance.current_kind]
    exact hstate.power_eof
  rw [hbinary, Rule.binary, bind_apply, inspect_apply]
  dsimp only
  rw [bind_apply, inspect_apply, hpower]
  rfl

/-- An operand is read without moving on: the end of input is the name, and as an operator it is not
strong enough to go on with. -/
theorem expression_eq (hroom : state.depth < state.limit) :
    Rule.expressionUpTo rounds (calls + 1) strength state =
      (some (.ident state.currentIdent), state.opened.leave) := by
  have hstop : Rule.continues strength state.opened = false := by
    rw [hstate.opened.continues_eq]
    exact decide_eq_false (Nat.lt_irrefl strength.rank)
  rw [Rule.expressionUpTo_succ, nested_eq_opened _ hroom, opened_apply, hstate.opened.body_eq,
    Rule.absorb_upTo, improveUpTo_of_not hstop]
  rfl

/-- One round: the end of input is taken as an operator and the next one as its operand, or there
are no more readings inside one another for that. -/
theorem extend_cases (hroom : state.depth < state.limit) (left : Expr) :
    (@Rule.extend σ _ (.upTo rounds) (Rule.expressionUpTo rounds calls) left state).2.stalled =
        true ∨
      ∃ (tree : Expr) (after : Parser σ),
        @Rule.extend σ _ (.upTo rounds) (Rule.expressionUpTo rounds calls) left state =
          (some tree, after) ∧
        after.Endless strength ∧ after.depth < after.limit := by
  have hnext := hstate.advance.advance
  rw [hstate.extend_eq]
  cases calls with
  | zero => exact Or.inl rfl
  | succ calls =>
      have hread : Rule.expressionUpTo rounds (calls + 1) strength state.advance.advance = _ :=
        hnext.expression_eq hroom
      exact Or.inr ⟨_, _, bind_of_some hread, hnext.opened.leave, hroom⟩

/-- However often the end of input has been taken as an operator, it is there once more. -/
theorem improveUpTo_stalled (hroom : state.depth < state.limit) (hless : power < strength)
    (left : Expr) (count : Nat) :
    (improveUpTo (Rule.continues power)
      (@Rule.extend σ _ (.upTo rounds) (Rule.expressionUpTo rounds calls)) count left
      state).2.stalled = true := by
  have hmore {state : Parser σ} (hstate : state.Endless strength) :
      Rule.continues power state = true := by
    rw [hstate.continues_eq]
    exact decide_eq_true hless
  induction count generalizing left state with
  | zero =>
      rw [improveUpTo_zero (hmore hstate)]
  | succ count ih =>
      rw [improveUpTo_succ (hmore hstate)]
      rcases hstate.extend_cases hroom left with hstalled | ⟨tree, after, hsome, hafter, hopen⟩
      · have hoperator (left : Expr) (rule : OperatorRule) : Keeps Stalls
            (@Rule.operatorBy σ _ (.upTo rounds) (Rule.expressionUpTo rounds calls) left rule) :=
          inferInstance
        have hstep (left : Expr) : Keeps Stalls
            (@Rule.extend σ _ (.upTo rounds) (Rule.expressionUpTo rounds calls) left) :=
          inferInstance
        exact Keeps.bind_rest (R := Stalls) _ (improveUpTo _ _ count) state hstalled
      · rw [bind_of_some hsome]
        exact ih hafter hopen tree

end Parser.Endless

/-- Where the end of input is taken for a name and for an operator that is strong enough, an
expression does not end: no budget will do. -/
theorem expression_endless {power strength : Power} (hless : power < strength) {state : Parser σ}
    (hstate : state.Endless strength) (hroom : state.depth + 1 < state.limit) (calls rounds : Nat) :
    (Operation.expression power).runBounded calls rounds state = none := by
  refine Operation.runBounded_eq_none_iff.2 ?_
  cases calls with
  | zero => rfl
  | succ calls =>
      have hinside := hstate.opened
      rw [Operation.runUpTo_expression, Operation.readExpression, Rule.expressionUpTo_succ,
        ParseM.nested_eq_opened _ (Nat.lt_of_succ_lt hroom)]
      have hloop : (ParseM.improveUpTo (Rule.continues power)
          (@Rule.extend σ _ (.upTo rounds) (Rule.expressionUpTo rounds calls)) rounds
          (.ident state.opened.currentIdent) state.opened).2.stalled = true :=
        hinside.improveUpTo_stalled hroom hless _ rounds
      rw [← Rule.absorb_upTo, ← hinside.body_eq] at hloop
      exact hloop

end Endless

end ExprLang
