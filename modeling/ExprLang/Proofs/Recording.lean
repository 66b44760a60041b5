/-
Nothing fails in silence.  Whatever a rule reads, the errors that were there stay, and one is added
if the rule gives up, if it builds a binding or a return without a value at any depth, or if it
leaves a statement out.  So a source without errors is read whole.
-/
import ExprLang.Proofs.Gathering
import ExprLang.Proofs.Progress
import Mathlib.Data.List.ReduceOption

namespace ExprLang

open ParseM

mutual

/-- How many bindings and returns without a value an expression has, at any depth. -/
def Expr.unvalued : Expr → Nat
  | .ident _ | .integer _ _ | .boolean _ _ => 0
  | .unary _ _ operand => operand.unvalued
  | .binary _ _ left right => left.unvalued + right.unvalued
  | .conditional _ condition consequent none => condition.unvalued + consequent.unvalued
  | .conditional _ condition consequent (some alternative) =>
      condition.unvalued + consequent.unvalued + alternative.unvalued
  | .function _ _ body => body.unvalued
  | .call _ callee arguments => callee.unvalued + Expr.unvaluedEach arguments

def Expr.unvaluedEach : List Expr → Nat
  | [] => 0
  | first :: rest => first.unvalued + Expr.unvaluedEach rest

def Stmt.unvalued : Stmt → Nat
  | .binding _ _ none | .returning _ none => 1
  | .binding _ _ (some value) | .returning _ (some value) | .expression _ value => value.unvalued

def Stmt.unvaluedEach : List Stmt → Nat
  | [] => 0
  | first :: rest => first.unvalued + Stmt.unvaluedEach rest

def Block.unvalued : Block → Nat
  | ⟨_, statements⟩ => Stmt.unvaluedEach statements

end

def Program.unvalued (program : Program) : Nat :=
  Stmt.unvaluedEach program.statements

theorem Expr.unvaluedEach_eq_zero {arguments : List Expr}
    (hwhole : ∀ tree ∈ arguments, tree.unvalued = 0) : Expr.unvaluedEach arguments = 0 := by
  induction arguments with
  | nil => rfl
  | cons first rest ih =>
      rw [unvaluedEach, hwhole first List.mem_cons_self,
        ih fun tree htree => hwhole tree (List.mem_cons_of_mem _ htree)]

theorem Stmt.unvaluedEach_eq_zero {statements : List Stmt}
    (hwhole : ∀ tree ∈ statements, tree.unvalued = 0) : Stmt.unvaluedEach statements = 0 := by
  induction statements with
  | nil => rfl
  | cons first rest ih =>
      rw [unvaluedEach, hwhole first List.mem_cons_self,
        ih fun tree htree => hwhole tree (List.mem_cons_of_mem _ htree)]

/-- Of statements that were tried one by one, those that are whole. -/
theorem Stmt.unvaluedEach_reduceOption {results : List (Option Stmt)}
    (hwhole : ∀ result ∈ results, ∃ tree, result = some tree ∧ tree.unvalued = 0) :
    Stmt.unvaluedEach results.reduceOption = 0 := by
  refine unvaluedEach_eq_zero fun tree htree => ?_
  obtain ⟨other, hsome, hzero⟩ := hwhole _ (List.reduceOption_mem_iff.1 htree)
  rwa [Option.some.inj hsome]

variable {σ α β : Type} [TokenSupply σ]

/-- An action that is run again and again answers what it answers where it does not give up. -/
theorem ParseM.answersWhile_eq_attempts (more : Parser σ → Bool) (action : ParseM σ α)
    (state : Parser σ) :
    answersWhile more action state =
      ((answersWhile more (attempt action) state).1.reduceOption,
        (answersWhile more (attempt action) state).2) := by
  fun_induction answersWhile more action state with
  | case1 state hmore result behind hresult after hless later final hlater ih =>
      have hattempt : attempt action state = (some result, behind) := by
        rw [attempt_apply, hresult]
      rw [hlater] at ih
      obtain ⟨rfl, rfl⟩ := Prod.ext_iff.1 ih
      rw [answersWhile_of_lt hmore hattempt hless]
      cases result <;> rfl
  | case2 state hmore result behind hresult after hless =>
      have hattempt : attempt action state = (some result, behind) := by
        rw [attempt_apply, hresult]
      rw [answersWhile_of_not_lt hmore hattempt hless]
      cases result <;> rfl
  | case3 state hmore =>
      rw [answersWhile_of_not (by simpa using hmore)]
      rfl

namespace Rule

/-- What the statements of a program are read as, one by one, and the parser behind them. -/
def programAttempts (state : Parser σ) : List (Option Stmt) × Parser σ :=
  answersWhile (fun state => !state.currentIs .eof) (attempt (statement expression)) state

/-- What the statements of a block are read as, one by one, and the parser behind them. -/
def blockAttempts (state : Parser σ) : List (Option Stmt) × Parser σ :=
  answersWhile (fun state => !state.currentIs .closeCurly && !state.currentIs .eof)
    (attempt (statement expression)) state.advance

/-- A program has the statements that could be read. -/
theorem statements_eq_attempts (state : Parser σ) :
    statements expression state =
      ((programAttempts state).1.reduceOption, (programAttempts state).2) :=
  answersWhile_eq_attempts _ (statement expression) state

theorem block_eq_attempts (state : Parser σ) :
    block expression state =
      (⟨state.current, (blockAttempts state).1.reduceOption⟩,
        if (blockAttempts state).2.currentIs .eof then
          (blockAttempts state).2.record (.unexpectedToken .closeCurly .eof)
        else (blockAttempts state).2) := by
  rw [block, Repetition.answersWhile_guarded, answersWhile_eq_attempts]
  rfl

theorem unvalued_program {state : Parser σ}
    (hwhole : ∀ result ∈ (programAttempts state).1,
      ∃ tree, result = some tree ∧ tree.unvalued = 0) : (parseProgram state).1.unvalued = 0 := by
  rw [parseProgram, statements_eq_attempts]
  exact Stmt.unvaluedEach_reduceOption hwhole

theorem unvalued_block {state : Parser σ}
    (hwhole : ∀ result ∈ (blockAttempts state).1, ∃ tree, result = some tree ∧ tree.unvalued = 0) :
    (block expression state).1.unvalued = 0 := by
  rw [block_eq_attempts]
  exact Stmt.unvaluedEach_reduceOption hwhole

end Rule

namespace Parser

omit [TokenSupply σ] in
theorem record_errors_size (error : SyntaxError) (state : Parser σ) :
    (state.record error).errors.size = state.errors.size + 1 :=
  Array.size_push error

/-- More than so many errors have been recorded. -/
def Recorded (count : Nat) (state : Parser σ) : Prop :=
  count < state.errors.size

instance (count : Nat) : Irrevocable (@Recorded σ count) where
  advance := id
  record {state} error hstate := by
    rw [Recorded, record_errors_size]
    exact Nat.lt_succ_of_lt hstate
  stall := id
  enter {state} hstate := by
    rw [enter]
    split
    · exact hstate
    · rw [Recorded, record_errors_size]
      exact Nat.lt_succ_of_lt hstate
  leave := id

/-- So many expressions are open, under a limit, and no fewer than `count` errors are recorded. -/
def Counts (depth limit count : Nat) (state : Parser σ) : Prop :=
  state.Opens depth limit ∧ count ≤ state.errors.size

omit [TokenSupply σ] in
theorem Counts.record {depth limit count : Nat} {state : Parser σ}
    (hcounts : state.Counts depth limit count) (error : SyntaxError) :
    (state.record error).Recorded count := by
  rw [Recorded, record_errors_size]
  exact Nat.lt_succ_of_le hcounts.2

end Parser

open ExprLang.Parser

/-- Where so many expressions are open, an action does not fail in silence: either it records an
error, or it answers and its answer is whole. -/
def Reports (depth limit : Nat) (action : ParseM σ α) (whole : α → Prop) : Prop :=
  ∀ count state, state.Counts depth limit count →
    Ensures (Recorded count) action state
      (fun value after => after.Counts depth limit count ∧ whole value) fun _ => False

namespace Reports

variable {depth limit : Nat} {action : ParseM σ α} {next : α → ParseM σ β} {middle whole : α → Prop}
  {final : β → Prop}

omit [TokenSupply σ] in
theorem pure {value : α} (hwhole : whole value) :
    Reports depth limit (pure value : ParseM σ α) whole :=
  fun _ _ hcounts => Ensures.pure ⟨hcounts, hwhole⟩

omit [TokenSupply σ] in
theorem fail (error : SyntaxError) : Reports depth limit (fail error : ParseM σ α) whole :=
  fun _ _ hcounts => Or.inl (hcounts.record error)

omit [TokenSupply σ] in
theorem inspect_bind {view : Parser σ → α}
    (hnext : ∀ value, Reports depth limit (next value) final) :
    Reports depth limit (inspect view >>= next) final :=
  fun count state hcounts => Ensures.inspect_bind (hnext (view state) count state hcounts)

theorem advance_bind {next : Unit → ParseM σ β} (hnext : Reports depth limit (next ()) final) :
    Reports depth limit (advance >>= next) final :=
  fun count state hcounts => Ensures.advance_bind (hnext count state.advance hcounts)

/-- A missing token is an error. -/
theorem expect_bind {kind : TokenKind} {next : Unit → ParseM σ β}
    (hnext : Reports depth limit (next ()) final) :
    Reports depth limit (expect kind >>= next) final :=
  fun count state hcounts => Ensures.expect_bind (fun _ => hnext count state.advance hcounts)
    fun _ => Or.inl (hcounts.record _)

omit [TokenSupply σ] in
theorem bind [∀ count value, Keeps (Loses (Recorded count)) (next value)]
    (haction : Reports depth limit action middle)
    (hnext : ∀ value, middle value → Reports depth limit (next value) final) :
    Reports depth limit (action >>= next) final :=
  fun count state hcounts => Ensures.bind (haction count state hcounts)
    fun value after hmiddle => hnext value hmiddle.2 count after hmiddle.1

omit [TokenSupply σ] in
/-- What is carried on from without an answer has recorded an error already. -/
theorem attempt_bind {next : Option α → ParseM σ β}
    [∀ count value, Keeps (Loses (Recorded count)) (next value)]
    (haction : Reports depth limit action middle)
    (hnext : ∀ value, middle value → Reports depth limit (next (some value)) final) :
    Reports depth limit (attempt action >>= next) final :=
  fun count state hcounts => Ensures.attempt_bind (haction count state hcounts)
    (fun value after hmiddle => hnext value hmiddle.2 count after hmiddle.1)
    fun _ hnever => hnever.elim

omit [TokenSupply σ] in
theorem imp {other : α → Prop} (haction : Reports depth limit action whole)
    (himp : ∀ value, whole value → other value) : Reports depth limit action other :=
  fun count state hcounts => (haction count state hcounts).mono
    (fun value _ hafter => ⟨hafter.1, himp value hafter.2⟩) fun _ => id

/-- A repetition whose steps all keep an answer whole, given up or not. -/
theorem improveWhile {more : Parser σ → Bool} {step : α → ParseM σ α} {start : α}
    [∀ count value, Keeps (Loses (Recorded count)) (step value)]
    (hstep : ∀ value, whole value → Reports depth limit (step value) whole) (hstart : whole start) :
    Reports depth limit (improveWhile more step start) whole :=
  fun count _ hcounts => Ensures.improveWhile_kept
    (fun value after => after.Counts depth limit count ∧ whole value) ⟨hcounts, hstart⟩
    (fun _ _ => id) fun value state _ hkept => hstep value hkept.2 count state hkept.1

/-- A repetition of an action up to the end of input at the latest, whose answers are all whole: if
no error is recorded no round goes without an answer. -/
theorem attempts (more : Parser σ → Bool) [∀ count, Keeps (Loses (Recorded count)) action]
    [Keeps Nears action] (hopen : ∀ state, more state = true → state.current.kind ≠ .eof)
    (haction : Reports depth limit action whole) {count : Nat} {state : Parser σ}
    (hcounts : state.Counts depth limit count) :
    (answersWhile more (attempt action) state).2.Recorded count ∨
      (answersWhile more (attempt action) state).2.Counts depth limit count ∧
        ∀ result ∈ (answersWhile more (attempt action) state).1,
          ∃ value, result = some value ∧ whole value := by
  have hstep (found : List (Option α)) (state : Parser σ) (_ : more state = true)
      (hfound : state.Counts depth limit count ∧
        ∀ result ∈ found, ∃ value, result = some value ∧ whole value) :
      Ensures (Recorded count) (attempt action) state
        (fun result after => after.advance.Counts depth limit count ∧
          ∀ other ∈ found ++ [result], ∃ value, other = some value ∧ whole value)
        fun after => after.advance.Counts depth limit count ∧
          ∀ result ∈ found, ∃ value, result = some value ∧ whole value := by
    refine Ensures.mono (haction count state hfound.1).attempt ?_ fun _ hnever => hnever.elim
    rintro (_ | value) after hanswer
    · exact hanswer.elim
    · refine ⟨hanswer.1, fun other hother => ?_⟩
      rcases List.mem_append.1 hother with hother | hother
      · exact hfound.2 other hother
      · exact ⟨value, List.mem_singleton.1 hother, hanswer.2⟩
  have hread := Ensures.answersWhile_answers more (attempt action)
    (fun found after => after.Counts depth limit count ∧
      ∀ result ∈ found, ∃ value, result = some value ∧ whole value)
    [] ⟨hcounts, fun _ hnever => absurd hnever List.not_mem_nil⟩ hopen hstep
  exact hread.imp id And.right

end Reports

/-- Where so many expressions are open, no expression fails in silence or lacks a value. -/
def ReportsExpressions (σ : Type) [TokenSupply σ] (depth limit : Nat) : Prop :=
  ∀ power, Reports depth limit (expression power : ParseM σ Expr) fun tree => tree.unvalued = 0

namespace Reports

variable {depth limit : Nat}

theorem skipSemicolon : Reports depth limit (Rule.skipSemicolon : ParseM σ Unit) fun _ => True := by
  intro count state hcounts
  refine Or.inr ⟨?_, trivial⟩
  split
  · exact hcounts
  · exact hcounts

/-- A binding is made without a value only where reading the value recorded an error. -/
theorem binding (hinner : ReportsExpressions σ depth limit) :
    Reports depth limit (Rule.binding (@expression σ _)) fun tree => tree.unvalued = 0 := by
  rw [Rule.binding]
  refine inspect_bind fun token => expect_bind ?_
  refine inspect_bind fun name => expect_bind (advance_bind ?_)
  refine attempt_bind (hinner .lowest) fun value hvalue => ?_
  exact bind skipSemicolon fun _ _ => pure (by rw [Stmt.unvalued, hvalue])

theorem returning (hinner : ReportsExpressions σ depth limit) :
    Reports depth limit (Rule.returning (@expression σ _)) fun tree => tree.unvalued = 0 := by
  rw [Rule.returning]
  refine inspect_bind fun token => advance_bind ?_
  refine attempt_bind (hinner .lowest) fun value hvalue => ?_
  exact bind skipSemicolon fun _ _ => pure (by rw [Stmt.unvalued, hvalue])

theorem expressionStatement (hinner : ReportsExpressions σ depth limit) :
    Reports depth limit (Rule.expressionStatement (@expression σ _))
      fun tree => tree.unvalued = 0 := by
  rw [Rule.expressionStatement]
  refine inspect_bind fun token => ?_
  refine attempt_bind (hinner .lowest) fun value hvalue => ?_
  refine bind skipSemicolon fun _ _ => ?_
  exact pure (by rw [Stmt.unvalued, hvalue])

theorem statementBy (hinner : ReportsExpressions σ depth limit) (rule : StatementRule) :
    Reports depth limit (Rule.statementBy (@expression σ _) rule)
      fun tree => tree.unvalued = 0 := by
  cases rule with
  | binding => exact binding hinner
  | returning => exact returning hinner
  | expression => exact expressionStatement hinner

theorem statement (hinner : ReportsExpressions σ depth limit) :
    Reports depth limit (Rule.statement (@expression σ _)) fun tree => tree.unvalued = 0 := by
  rw [Rule.statement]
  exact inspect_bind fun rule => statementBy hinner (rule.getD .expression)

/-- A block that ends with the input is an error, and otherwise each of its statements is read or is
one. -/
theorem blockAttempts (hinner : ReportsExpressions σ depth limit) {count : Nat} {state : Parser σ}
    (hcounts : state.Counts depth limit count) :
    (Rule.block expression state).2.Recorded count ∨
      (Rule.block expression state).2.Counts depth limit count ∧
        ∀ result ∈ (Rule.blockAttempts state).1,
          ∃ tree, result = some tree ∧ tree.unvalued = 0 := by
  have hopening : state.advance.Counts depth limit count := hcounts
  have hread := attempts (fun state => !state.currentIs .closeCurly && !state.currentIs .eof)
    (by simp [Parser.currentIs]) (statement hinner) hopening
  rw [Rule.block_eq_attempts, Rule.blockAttempts]
  generalize answersWhile _ _ state.advance = read at hread ⊢
  obtain ⟨results, after⟩ := read
  dsimp only at hread ⊢
  split
  · refine Or.inl ?_
    rcases hread with hrecorded | ⟨hafter, -⟩
    · exact Keeps.after (Loses (Recorded count))
        (ParseM.fail (.unexpectedToken .closeCurly .eof) : ParseM σ Unit) after hrecorded
    · exact hafter.record _
  · exact hread

theorem programAttempts (hinner : ReportsExpressions σ depth limit) {count : Nat}
    {state : Parser σ} (hcounts : state.Counts depth limit count) :
    (parseProgram state).2.Recorded count ∨
      ∀ result ∈ (Rule.programAttempts state).1,
        ∃ tree, result = some tree ∧ tree.unvalued = 0 := by
  have hread := attempts (fun state => !state.currentIs .eof) (by simp [Parser.currentIs])
    (statement hinner) hcounts
  rw [parseProgram, Rule.statements_eq_attempts]
  exact hread.imp id And.right

theorem block (hinner : ReportsExpressions σ depth limit) :
    Reports depth limit (always (Rule.block (@expression σ _)))
      fun tree => tree.unvalued = 0 := by
  intro count state hcounts
  exact (blockAttempts hinner hcounts).imp id fun ⟨hafter, hwhole⟩ =>
    ⟨hafter, Rule.unvalued_block hwhole⟩

/-- The other arm of a conditional, if there is one. -/
theorem alternative (hinner : ReportsExpressions σ depth limit) :
    Reports depth limit (Rule.alternative (@expression σ _))
      fun arm => ∀ tree, arm = some tree → tree.unvalued = 0 := by
  rw [Rule.alternative]
  refine inspect_bind fun more => ?_
  split
  · refine advance_bind (expect_bind (bind (block hinner) fun arm harm => pure ?_))
    rintro tree ⟨⟩
    exact harm
  · refine pure ?_
    rintro tree ⟨⟩

omit [TokenSupply σ] in
theorem integer : Reports depth limit (Rule.integer : ParseM σ Expr)
    fun tree => tree.unvalued = 0 := by
  rw [Rule.integer]
  refine inspect_bind fun token => ?_
  split
  · exact pure (by rw [Expr.unvalued])
  · exact fail _

theorem unary (hinner : ReportsExpressions σ depth limit) :
    Reports depth limit (Rule.unary (@expression σ _)) fun tree => tree.unvalued = 0 := by
  rw [Rule.unary]
  refine inspect_bind fun token => advance_bind ?_
  exact bind (hinner .unary) fun operand hoperand => pure (by rw [Expr.unvalued, hoperand])

theorem grouped (hinner : ReportsExpressions σ depth limit) :
    Reports depth limit (Rule.grouped (@expression σ _)) fun tree => tree.unvalued = 0 := by
  rw [Rule.grouped]
  refine advance_bind (attempt_bind (hinner .lowest) fun value hvalue => expect_bind ?_)
  exact pure hvalue

/-- A condition that cannot be read makes the conditional give up only behind its blocks, but the
error was recorded in front of them. -/
theorem conditional (hinner : ReportsExpressions σ depth limit) :
    Reports depth limit (Rule.conditional (@expression σ _))
      fun tree => tree.unvalued = 0 := by
  rw [Rule.conditional]
  refine inspect_bind fun token => expect_bind (advance_bind ?_)
  refine attempt_bind (hinner .lowest) fun condition hcondition => ?_
  refine expect_bind (expect_bind ?_)
  refine bind (block hinner) fun consequent hconsequent => ?_
  refine bind (alternative hinner) fun other hother => ?_
  refine pure ?_
  cases other with
  | none => rw [Expr.unvalued, hcondition, hconsequent]
  | some arm => rw [Expr.unvalued, hcondition, hconsequent, hother arm rfl]

theorem nextIdent : Reports depth limit (Rule.nextIdent : ParseM σ Ident) fun _ => True := by
  rw [Rule.nextIdent]
  exact expect_bind fun _ _ hcounts => Or.inr ⟨hcounts, trivial⟩

/-- Parts with commas between them, each of which a step of the list keeps whole. -/
theorem listOf {part : ParseM σ α} [∀ count, Keeps (Loses (Recorded count)) part]
    {whole : α → Prop} (hpart : Reports depth limit part whole) :
    Reports depth limit (Rule.listOf part) fun found => ∀ value ∈ found, whole value := by
  rw [Rule.listOf]
  refine inspect_bind fun closing => ?_
  split
  · exact advance_bind (pure fun _ hnever => absurd hnever List.not_mem_nil)
  · have hstep (found : List α) (hfound : ∀ value ∈ found, whole value) :
        Reports depth limit (Rule.onePart part found)
          fun found => ∀ value ∈ found, whole value := by
      refine advance_bind (bind hpart fun next hnext => pure fun value hvalue => ?_)
      rcases List.mem_append.1 hvalue with hvalue | hvalue
      · exact hfound value hvalue
      · rwa [List.mem_singleton.1 hvalue]
    refine bind hpart fun first hfirst => ?_
    refine bind (improveWhile hstep ?_) fun found hfound => expect_bind (pure hfound)
    simpa using hfirst

theorem function (hinner : ReportsExpressions σ depth limit) :
    Reports depth limit (Rule.function (@expression σ _)) fun tree => tree.unvalued = 0 := by
  rw [Rule.function, Rule.parameters]
  refine inspect_bind fun token => expect_bind ?_
  refine bind (listOf nextIdent) fun names _ => expect_bind ?_
  exact bind (block hinner) fun body hbody => pure (by rw [Expr.unvalued, hbody])

theorem binary (hinner : ReportsExpressions σ depth limit) (left : Expr) :
    Reports depth limit (Rule.binary (@expression σ _) left)
      fun tree => tree.unvalued = left.unvalued := by
  rw [Rule.binary]
  refine inspect_bind fun token => inspect_bind fun power => advance_bind ?_
  exact bind (hinner power) fun right hright => pure (by rw [Expr.unvalued, hright, Nat.add_zero])

theorem call (hinner : ReportsExpressions σ depth limit) (callee : Expr) :
    Reports depth limit (Rule.call (@expression σ _) callee)
      fun tree => tree.unvalued = callee.unvalued := by
  have hargument : Reports depth limit (do advance; @expression σ _ .lowest)
      fun tree => tree.unvalued = 0 := advance_bind (hinner .lowest)
  rw [Rule.call, Rule.arguments]
  refine inspect_bind fun token => bind (listOf hargument) fun found hfound => pure ?_
  rw [Expr.unvalued, Expr.unvaluedEach_eq_zero hfound, Nat.add_zero]

theorem startBy (hinner : ReportsExpressions σ depth limit) (rule : StartRule) :
    Reports depth limit (Rule.startBy (@expression σ _) rule)
      fun tree => tree.unvalued = 0 := by
  cases rule with
  | ident => exact inspect_bind fun _ => pure (by rw [Expr.unvalued])
  | integer => exact integer
  | boolean => exact inspect_bind fun _ => pure (by rw [Expr.unvalued])
  | unary => exact unary hinner
  | grouped => exact grouped hinner
  | conditional => exact conditional hinner
  | function => exact function hinner

/-- An operator adds no binding or return without a value to those of its left operand. -/
theorem operatorBy (hinner : ReportsExpressions σ depth limit) (left : Expr)
    (rule : OperatorRule) :
    Reports depth limit (Rule.operatorBy (@expression σ _) left rule)
      fun tree => tree.unvalued = left.unvalued := by
  cases rule with
  | binary => exact binary hinner left
  | call => exact call hinner left

theorem absorb (hinner : ReportsExpressions σ depth limit) (power : Power) {left : Expr}
    (hleft : left.unvalued = 0) :
    Reports depth limit (Rule.absorb (@expression σ _) power left)
      fun tree => tree.unvalued = 0 := by
  rw [Rule.absorb]
  refine improveWhile (fun left hleft => ?_) hleft
  rw [Rule.extend]
  refine inspect_bind fun operator => ?_
  split
  · exact pure hleft
  · exact advance_bind ((operatorBy hinner left _).imp fun tree htree => htree.trans hleft)

theorem body (hinner : ReportsExpressions σ depth limit) (power : Power) :
    Reports depth limit (Rule.body (@expression σ _) power)
      fun tree => tree.unvalued = 0 := by
  have hstart : Reports depth limit (Rule.start (@expression σ _))
      fun tree => tree.unvalued = 0 := by
    rw [Rule.start]
    refine inspect_bind fun kind => inspect_bind fun rule => ?_
    split
    · exact fail _
    · exact startBy hinner _
  rw [Rule.body]
  exact bind hstart fun left hleft => absorb hinner power hleft

end Reports

/-- However many expressions are open, reading one more does not fail in silence. -/
theorem reportsExpressions (σ : Type) [TokenSupply σ] (depth limit : Nat) :
    ReportsExpressions σ depth limit := by
  induction hroom : limit - depth generalizing depth with
  -- Without room the expression is refused, which is an error.
  | zero =>
      intro power count state hcounts
      rw [expression_eq_nested]
      refine Ensures.nested (fun hopen => ?_) fun _ => Or.inl (hcounts.record _)
      obtain ⟨⟨rfl, rfl⟩, -⟩ := hcounts
      omega
  | succ room ih =>
      intro power count state hcounts
      rw [expression_eq_nested]
      refine Ensures.nested (fun hopen => ?_) fun _ => Or.inl (hcounts.record _)
      have hinside : state.enter.2.Counts (depth + 1) limit count := by
        simp only [Parser.enter, hopen, ↓reduceIte]
        exact ⟨⟨congrArg (· + 1) hcounts.1.1, hcounts.1.2⟩, hcounts.2⟩
      refine Ensures.mono (Reports.body (ih (depth + 1) (by omega)) power count _ hinside) ?_
        fun _ => id
      rintro tree inside ⟨⟨⟨hdepth, hlimit⟩, hcount⟩, htree⟩
      exact ⟨⟨⟨congrArg (· - 1) hdepth, hlimit⟩, hcount⟩, htree⟩

namespace Outcome

/-- Whether there is no answer where there could have been one. -/
def failed : Outcome → Bool
  | .expression none | .statement none => true
  | _ => false

/-- How many bindings and returns without a value an answer has, at any depth. -/
def unvalued : Outcome → Nat
  | .expression (some tree) => tree.unvalued
  | .statement (some tree) => tree.unvalued
  | .block tree => tree.unvalued
  | .program tree => tree.unvalued
  | _ => 0

/-- The statements of a block or a program. -/
def statements : Outcome → List Stmt
  | .block tree => tree.statements
  | .program tree => tree.statements
  | _ => []

end Outcome

namespace Operation

/-- How many bindings and returns without a value an operation is given, in its left operand. -/
def given : Operation → Nat
  | .operator _ left => left.unvalued
  | _ => 0

/-- What the statements of a block or a program are read as, one by one: nothing for those that
cannot be read. -/
def attempts (operation : Operation) (state : Parser σ) : List (Option Stmt) :=
  match operation with
  | .block => (Rule.blockAttempts state).1
  | .program => (Rule.programAttempts state).1
  | _ => []

/-- An operation answers with the statements that could be read. -/
theorem statements_run (operation : Operation) (state : Parser σ) :
    (operation.run state).1.statements = (operation.attempts state).reduceOption := by
  cases operation with
  | block => exact congrArg (·.1.statements) (Rule.block_eq_attempts state)
  | program => exact congrArg Prod.fst (Rule.statements_eq_attempts state)
  | _ => rfl

section Reports

variable {state : Parser σ}

omit [TokenSupply σ] in
/-- An action that does not fail in silence records an error, or it answers and the outcome that its
answer is wrapped up as is no failure. -/
theorem recorded_or_answered {action : ParseM σ α} {whole : α → Prop} {given : Nat}
    (wrap : Option α → Outcome) (haction : Reports state.depth state.limit action whole)
    (hwrap : ∀ value, whole value →
      (wrap (some value)).failed = false ∧ (wrap (some value)).unvalued = given) :
    (action state).2.Recorded state.errors.size ∨
      (wrap (action state).1).failed = false ∧ (wrap (action state).1).unvalued = given := by
  have hread := haction state.errors.size state ⟨⟨rfl, rfl⟩, Nat.le_refl _⟩
  rw [Ensures] at hread
  refine hread.imp id fun hanswer => ?_
  rcases hresult : action state with ⟨_ | value, after⟩ <;> rw [hresult] at hanswer
  · exact hanswer.elim
  · exact hwrap value hanswer.2

/-- If an operation records no error, it answers, and it builds no binding and no return without a
value. -/
theorem run_reports {operation : Operation} (hparses : operation.parses = true) :
    (operation.run state).2.Recorded state.errors.size ∨
      (operation.run state).1.failed = false ∧
        (operation.run state).1.unvalued = operation.given := by
  have hinner := reportsExpressions σ state.depth state.limit
  have hcounts : state.Counts state.depth state.limit state.errors.size :=
    ⟨⟨rfl, rfl⟩, Nat.le_refl _⟩
  cases operation with
  | expression power =>
      exact (recorded_or_answered .expression (hinner power) fun _ hzero => ⟨rfl, hzero⟩ :)
  | start rule =>
      exact recorded_or_answered .expression (.startBy hinner rule) fun _ hzero => ⟨rfl, hzero⟩
  | operator rule left =>
      exact recorded_or_answered .expression (.operatorBy hinner left rule)
        fun _ hsame => ⟨rfl, hsame⟩
  | anyStatement =>
      exact (recorded_or_answered .statement (.statement hinner) fun _ hzero => ⟨rfl, hzero⟩ :)
  | statement rule =>
      exact recorded_or_answered .statement (.statementBy hinner rule) fun _ hzero => ⟨rfl, hzero⟩
  | block =>
      exact (Reports.blockAttempts hinner hcounts).imp id
        fun ⟨_, hwhole⟩ => ⟨rfl, Rule.unvalued_block hwhole⟩
  | program =>
      exact (Reports.programAttempts hinner hcounts).imp id
        fun hwhole => ⟨rfl, Rule.unvalued_program hwhole⟩
  | _ => contradiction

/-- If an operation records no error, no statement is left out. -/
theorem attempts_report {operation : Operation} (hparses : operation.parses = true) :
    (operation.run state).2.Recorded state.errors.size ∨ none ∉ operation.attempts state := by
  have hinner := reportsExpressions σ state.depth state.limit
  have hcounts : state.Counts state.depth state.limit state.errors.size :=
    ⟨⟨rfl, rfl⟩, Nat.le_refl _⟩
  have hread {results : List (Option Stmt)}
      (hwhole : ∀ result ∈ results, ∃ tree, result = some tree ∧ tree.unvalued = 0) :
      none ∉ results := by
    intro hnone
    obtain ⟨tree, hsome, -⟩ := hwhole none hnone
    contradiction
  cases operation with
  | block => exact (Reports.blockAttempts hinner hcounts).imp id fun hafter => hread hafter.2
  | program => exact (Reports.programAttempts hinner hcounts).imp id hread
  | _ => exact Or.inr List.not_mem_nil

end Reports

end Operation

/-- Nothing fails in silence.  Over a lexer, with any grammar in which the end of input is no
operator, an operation that reads part of a program comes to an end; it leaves the errors that were
there and adds to them if it does not answer, if its answer has a binding or a return without a
value that it was not given, and if it leaves out one of the statements it tried.  So in a source
without errors every binding and every return has its value. -/
theorem errors_of_failure :
    (∀ state : Parser Lexer, state.Reachable → state.grammar.operator .eof = none →
      ∀ operation : Operation, operation.parses = true →
        (operation.run state).2.stalled = false ∧
        ∃ recorded, (operation.run state).2.errors.toList = state.errors.toList ++ recorded ∧
          ((operation.run state).1.failed = true → recorded ≠ []) ∧
          ((operation.run state).1.unvalued ≠ operation.given → recorded ≠ []) ∧
          (operation.run state).1.statements = (operation.attempts state).reduceOption ∧
          (none ∈ operation.attempts state → recorded ≠ [])) ∧
    ∀ source : String, (parse source).2 = [] → (parse source).1.unvalued = 0 := by
  constructor
  · intro state hreachable hends operation hparses
    obtain ⟨recorded, herrors⟩ := (Operation.run_precedes hparses state).errors
    have hnone (hempty : recorded = []) : ¬ (operation.run state).2.Recorded state.errors.size := by
      rw [hempty, List.append_nil] at herrors
      rw [Recorded, ← Array.length_toList, ← Array.length_toList, herrors]
      exact Nat.lt_irrefl _
    have hreports (hempty : recorded = []) : (operation.run state).1.failed = false ∧
        (operation.run state).1.unvalued = operation.given :=
      (Operation.run_reports hparses).resolve_left (hnone hempty)
    refine ⟨(Operation.run_unstalled hparses (hreachable.unstalled hends)).unstalled, recorded,
      herrors.symm, fun hfailed hempty => ?_, fun hother hempty => ?_,
      operation.statements_run state, fun hleft hempty => ?_⟩
    · rw [(hreports hempty).1] at hfailed
      contradiction
    · exact hother (hreports hempty).2
    · exact (Operation.attempts_report hparses).resolve_left (hnone hempty) hleft
  · intro source hclean
    have hread (start : Parser Lexer) :
        (Operation.program.run start).2.Recorded start.errors.size ∨
          (Operation.program.run start).1.failed = false ∧
            (Operation.program.run start).1.unvalued = 0 :=
      Operation.run_reports rfl
    rcases hread (.ofSupply (.ofSource source) maxNesting) with hrecorded | ⟨-, hwhole⟩
    · have hsome : 0 < (parse source).2.length := hrecorded
      rw [hclean] at hsome
      contradiction
    · exact hwhole

/-- A binding lacks its value and what is behind it is no statement: there are two errors. -/
theorem errors_of_failure_binding :
    (Parser.ofSupply (Lexer.ofSource "let a = * )") maxNesting).Reachable ∧
      (Operation.program.run
        (Parser.ofSupply (Lexer.ofSource "let a = * )") maxNesting)).1.unvalued = 1 ∧
      none ∈ Operation.program.attempts
        (Parser.ofSupply (Lexer.ofSource "let a = * )") maxNesting) ∧
      (Operation.program.run
        (Parser.ofSupply (Lexer.ofSource "let a = * )") maxNesting)).2.errors.toList ≠ [] ∧
      (parse "let a = 1").2 = [] ∧ (parse "let a = 1").1.unvalued = 0 := by
  have hreachable :
      (Parser.ofSupply (Lexer.ofSource "let a = * )") maxNesting).Reachable := .new _
  have hlacks : (Operation.program.run
      (Parser.ofSupply (Lexer.ofSource "let a = * )") maxNesting)).1.unvalued = 1 := by
    decide +kernel
  have hclean : (parse "let a = 1").2 = [] := by decide +kernel
  obtain ⟨hoperations, hsource⟩ := errors_of_failure
  obtain ⟨-, recorded, herrors, -, hunvalued, -, -⟩ :=
    hoperations _ hreachable rfl .program rfl
  refine ⟨hreachable, hlacks, by decide +kernel, ?_, hclean, hsource _ hclean⟩
  rw [herrors]
  refine List.append_ne_nil_of_right_ne_nil _ (hunvalued ?_)
  rw [hlacks]
  decide

end ExprLang
