/-
Working a parser by operations.  An operation that reads part of a program does so by a rule, and
what every rule keeps such operations keep; the others are a move or a change of the grammar.  A
parser can be reached if operations lead to it from a new one.
-/
import ExprLang.Parser.Operation
import ExprLang.Proofs.Recursion

namespace ExprLang

variable {σ τ : Type} [TokenSupply σ] [TokenSupply τ]

/-- Reports the end of a program with so many statements. -/
def Parser.finish (count : Nat) (state : Parser σ) : Parser σ :=
  { state with log := state.log.push (.finished count state.errors.size) }

/-- The parsers that operations lead to from a new parser. -/
inductive Parser.Reachable : Parser σ → Prop
  | new (supply : σ) : Reachable (ofSupply supply maxNesting)
  | run (operation : Operation) {state : Parser σ} :
      Reachable state → Reachable (operation.run state).2

/-- One move of a parser, or a change of its grammar that takes no operator back. -/
inductive Parser.Worked (state : Parser σ) : Parser σ → Prop
  | advance : Worked state state.advance
  | record (error : SyntaxError) : Worked state (state.record error)
  | enter (hroom : state.depth < state.limit) : Worked state state.opened
  | leave : Worked state state.leave
  | change (grammar : Grammar)
      (hkept : ∀ kind, grammar.operator kind = none → state.grammar.operator kind = none) :
      Worked state { state with grammar := grammar }

namespace Operation

/-- Whether an operation reads part of a program. -/
def parses : Operation → Bool
  | expression _ | start _ | operator _ _ | anyStatement | statement _ | block | program => true
  | _ => false

/-- An operation that reads nothing is one move or a change of the grammar. -/
theorem run_worked {operation : Operation} (hparses : operation.parses ≠ true)
    (state : Parser σ) : state.Worked (operation.run state).2 := by
  cases operation with
  | advance => exact .advance
  | expect kind =>
      have hexpect : state.Worked (ParseM.expect kind state).2 := by
        rw [ParseM.expect]
        split
        · exact .advance
        · exact .record _
      exact hexpect
  | record error => exact .record error
  | enter =>
      have henter : state.Worked state.enter.2 := by
        rw [Parser.enter]
        split
        · next hroom => exact .enter hroom
        · exact .record _
      exact henter
  | leave => exact .leave
  | setStatement kind rule | setStart kind rule => exact .change _ fun _ => id
  | setOperator kind power rule =>
      refine .change _ fun other hnone => ?_
      simp only [Grammar.withOperator] at hnone
      split at hnone
      · contradiction
      · exact hnone
  | _ => exact absurd rfl hparses

/-- What an operation answers, and the parser behind it, when `inner` is the way to read the
expressions inside what it reads. -/
def runWith [Repetition σ] (inner : Power → ParseM σ Expr) (operation : Operation)
    (state : Parser σ) : Outcome × Parser σ :=
  match operation with
  | .expression power => readExpression (inner power) state
  | .start rule => readExpression (Rule.startBy inner rule) state
  | .operator rule left => readExpression (Rule.operatorBy inner left rule) state
  | .anyStatement => readStatement (Rule.statement inner) state
  | .statement rule => readStatement (Rule.statementBy inner rule) state
  | .block =>
      let (result, after) := Rule.block inner state
      (.block result, after)
  | .program =>
      let (trees, after) := Rule.statements inner state
      (.program ⟨trees⟩, after.finish trees.length)
  | operation => operation.run state

/-- The operations read the expressions inside by `expression`. -/
theorem runWith_expression (operation : Operation) (state : Parser σ) :
    operation.runWith ExprLang.expression state = operation.run state := by
  cases operation <;> rfl

section Keeps

variable {loops : Repetition σ} {R : Parser σ → Parser σ → Prop} [Repeating R]
  (inner : Power → ParseM σ Expr) [∀ power, Keeps R (inner power)]

/-- An operation that reads part of a program keeps what the elementary moves keep. -/
theorem keeps_runWith {operation : Operation} (hparses : operation.parses = true)
    (hfinish : ∀ count (state : Parser σ), R state (state.finish count)) (state : Parser σ) :
    R state (operation.runWith inner state).2 := by
  cases operation with
  | expression power => exact Keeps.after R (inner power) state
  | start rule => exact Keeps.after R (Rule.startBy inner rule) state
  | operator rule left => exact Keeps.after R (Rule.operatorBy inner left rule) state
  | anyStatement => exact Keeps.after R (Rule.statement inner) state
  | statement rule => exact Keeps.after R (Rule.statementBy inner rule) state
  | block => exact Keeps.block inner state
  | program => exact Enduring.trans (Keeps.statements inner state) (hfinish _ _)
  | _ => contradiction

end Keeps

section InStep

variable {C : Coupling σ τ} {loops : Repetition σ} {others : Repetition τ} [loops.Lawful]
  [others.Lawful] [C.RepeatsInStep loops others] (inner : Power → ParseM σ Expr)
  (other : Power → ParseM τ Expr) [∀ power, InStep C (inner power) (other power)]

/-- An operation that reads part of a program is in step with itself: the answers are the same and
the parsers are still together, or else the parsers have parted. -/
theorem runWith_inStep
    (hfinish : ∀ count state behind, C.together state behind →
      C.together (state.finish count) (behind.finish count))
    (hparted : ∀ first second state behind, C.apart state behind →
      C.apart (state.finish first) (behind.finish second))
    {operation : Operation} (hparses : operation.parses = true) {state : Parser σ}
    {behind : Parser τ} (htogether : C.together state behind) :
    ((operation.runWith inner state).1 = (operation.runWith other behind).1 ∧
        C.together (operation.runWith inner state).2 (operation.runWith other behind).2) ∨
      C.apart (operation.runWith inner state).2 (operation.runWith other behind).2 := by
  have hmeets {α : Type} (first : ParseM σ α) (second : ParseM τ α) [InStep C first second] :
      C.Meets (first state) (second behind) :=
    InStep.meets first second htogether
  cases operation with
  | expression power =>
      exact (hmeets (inner power) (other power)).imp_left
        (And.imp_left (congrArg Outcome.expression))
  | start rule =>
      exact (hmeets (Rule.startBy inner rule) (Rule.startBy other rule)).imp_left
        (And.imp_left (congrArg Outcome.expression))
  | operator rule left =>
      exact (hmeets (Rule.operatorBy inner left rule) (Rule.operatorBy other left rule)).imp_left
        (And.imp_left (congrArg Outcome.expression))
  | anyStatement =>
      exact (hmeets (Rule.statement inner) (Rule.statement other)).imp_left
        (And.imp_left (congrArg Outcome.statement))
  | statement rule =>
      exact (hmeets (Rule.statementBy inner rule) (Rule.statementBy other rule)).imp_left
        (And.imp_left (congrArg Outcome.statement))
  | block =>
      exact (hmeets (ParseM.always (Rule.block inner))
        (ParseM.always (Rule.block other))).imp_left
        (And.imp_left fun hanswer => congrArg Outcome.block (Option.some.inj hanswer))
  | program =>
      rcases hmeets (ParseM.always (Rule.statements inner))
        (ParseM.always (Rule.statements other)) with ⟨hanswer, hafter⟩ | hapart
      · have htrees := Option.some.inj hanswer
        rw [runWith, runWith]
        dsimp only
        rw [← htrees]
        exact Or.inl ⟨rfl, hfinish _ _ _ hafter⟩
      · exact Or.inr (hparted _ _ _ _ hapart)
  | _ => contradiction

end InStep

end Operation

end ExprLang
