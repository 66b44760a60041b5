/-
Reading at a weak power is reading at a stronger one and going on from there.  Absorbing operators
with the weaker bound first takes just the steps that the stronger bound allows, since what goes on
at a strong power goes on at a weaker one as well.  What has been read by then stays where it is: it
becomes the left operand or the callee of whatever is absorbed behind it.
-/
import ExprLang.Proofs.Progress
import ExprLang.Tree.Render

namespace ExprLang

open ParseM

variable {σ α : Type} [TokenSupply σ]

/-- A tree is met on the way down from the root of another one by left operands and callees. -/
inductive Expr.OnLeftSpine (part : Expr) : Expr → Prop
  | root : part.OnLeftSpine part
  | binary {token : Token} {operator : String} {left right : Expr} :
      part.OnLeftSpine left → part.OnLeftSpine (.binary token operator left right)
  | call {token : Token} {callee : Expr} {arguments : List Expr} :
      part.OnLeftSpine callee → part.OnLeftSpine (.call token callee arguments)

theorem Expr.OnLeftSpine.trans {part middle whole : Expr} (hpart : part.OnLeftSpine middle)
    (hmiddle : middle.OnLeftSpine whole) : part.OnLeftSpine whole := by
  induction hmiddle with
  | root => exact hpart
  | binary _ ih => exact .binary ih
  | call _ ih => exact .call ih

omit [TokenSupply σ] in
/-- Behind an answer of two actions in a row lies an answer of the first. -/
theorem ParseM.exists_of_bind_eq_some {β : Type} {action : ParseM σ α} {next : α → ParseM σ β}
    {state after : Parser σ} {value : β}
    (hresult : (action >>= next) state = (some value, after)) :
    ∃ answer middle, action state = (some answer, middle) ∧
      next answer middle = (some value, after) := by
  rw [bind_apply] at hresult
  rcases haction : action state with ⟨_ | answer, middle⟩
  · rw [haction] at hresult
    obtain ⟨⟨⟩, -⟩ := Prod.mk.inj hresult
  · rw [haction] at hresult
    exact ⟨answer, middle, rfl, hresult⟩

/-- A repetition first takes the steps that a stricter condition allows.  None of these may be one
behind which the stricter repetition would be given up. -/
theorem ParseM.improveWhile_split {strict more : Parser σ → Bool} {step : α → ParseM σ α}
    (holds : Parser σ → Prop) (hmore : ∀ state, strict state = true → more state = true)
    (hstep : ∀ value state, strict state = true → holds state →
      (step value state).2.ahead < state.ahead ∧ holds (step value state).2)
    {start : α} {state : Parser σ} (hstate : holds state) :
    improveWhile more step start state =
      (improveWhile strict step start >>= improveWhile more step) state := by
  fun_induction ParseM.improveWhile strict step start state with
  | case1 start state hstrict after hresult =>
      rw [improveWhile_of_none (hmore state hstrict) hresult,
        bind_of_none (improveWhile_of_none hstrict hresult)]
  | case2 start state hstrict better after hresult hless ih =>
      have hafter := (hstep start state hstrict hstate).2
      rw [hresult] at hafter
      rw [improveWhile_of_lt (hmore state hstrict) hresult hless, ih hafter, bind_apply, bind_apply,
        improveWhile_of_lt hstrict hresult hless]
  | case3 start state hstrict better after hresult hless =>
      have hfewer := (hstep start state hstrict hstate).1
      rw [hresult] at hfewer
      exact absurd hfewer hless
  | case4 start state hstrict =>
      rw [Bool.not_eq_true] at hstrict
      rw [bind_of_some (improveWhile_of_not hstrict)]

namespace Rule

omit [TokenSupply σ] in
/-- What goes on at a power goes on at every weaker one. -/
theorem continues_of_le {weak strong : Power} (hle : weak ≤ strong) {state : Parser σ}
    (hmore : continues strong state = true) : continues weak state = true := by
  rw [continues_iff_lt] at hmore ⊢
  exact ⟨hmore.1, Nat.lt_of_le_of_lt hle hmore.2⟩

/-- Absorbing at a weak power is absorbing at a stronger one and going on with what that gives. -/
theorem absorb_split {weak strong : Power} (hle : weak ≤ strong) {left : Expr} {state : Parser σ}
    (hstate : state.Unstalled) :
    absorb expression weak left state =
      (absorb expression strong left >>= absorb expression weak) state := by
  refine improveWhile_split Parser.Unstalled (fun state => continues_of_le hle) ?_ hstate
  intro left state hmore hstate
  exact ⟨ahead_extend_lt expression hmore hstate,
    (Keeps.after Parser.Steady (extend expression left) state).unstalled hstate⟩

/-- Reading an expression at a weak power is reading it at a stronger one and going on with what
that gives. -/
theorem body_split {weak strong : Power} (hle : weak ≤ strong) {state : Parser σ}
    (hstate : state.Unstalled) :
    body expression weak state = (body expression strong >>= absorb expression weak) state := by
  have hkept := Keeps.after Parser.Steady (start (σ := σ) expression) state
  rw [body, body, bind_assoc_apply, bind_apply, bind_apply]
  rcases hstart : start expression state with ⟨_ | left, after⟩
  · rfl
  · rw [hstart] at hkept
    exact absorb_split hle (hkept.unstalled hstate)

variable {inner : Power → ParseM σ Expr} {left tree : Expr} {state after : Parser σ}

/-- An operator takes what is in front of it as its left operand or callee. -/
theorem onLeftSpine_operatorBy {rule : OperatorRule}
    (hresult : operatorBy inner left rule state = (some tree, after)) : left.OnLeftSpine tree := by
  cases rule with
  | binary =>
      obtain ⟨token, begun, -, hresult⟩ := exists_of_bind_eq_some hresult
      obtain ⟨power, ready, -, hresult⟩ := exists_of_bind_eq_some hresult
      obtain ⟨-, moved, -, hresult⟩ := exists_of_bind_eq_some hresult
      obtain ⟨right, last, -, hresult⟩ := exists_of_bind_eq_some hresult
      obtain ⟨⟨⟩, -⟩ := Prod.mk.inj hresult
      exact .binary .root
  | call =>
      obtain ⟨token, begun, -, hresult⟩ := exists_of_bind_eq_some hresult
      obtain ⟨found, last, -, hresult⟩ := exists_of_bind_eq_some hresult
      obtain ⟨⟨⟩, -⟩ := Prod.mk.inj hresult
      exact .call .root

theorem onLeftSpine_extend (hresult : extend inner left state = (some tree, after)) :
    left.OnLeftSpine tree := by
  obtain ⟨operator, begun, -, hresult⟩ := exists_of_bind_eq_some hresult
  cases operator with
  | none =>
      obtain ⟨⟨⟩, -⟩ := Prod.mk.inj hresult
      exact .root
  | some operator =>
      obtain ⟨-, moved, -, hresult⟩ := exists_of_bind_eq_some hresult
      exact onLeftSpine_operatorBy hresult

/-- What is absorbed goes around the expression in front of it. -/
theorem onLeftSpine_absorb {power : Power}
    (hresult : absorb inner power left state = (some tree, after)) : left.OnLeftSpine tree := by
  rw [absorb, Repetition.improveWhile_guarded] at hresult
  fun_induction improveWhile (continues power) (extend inner) left state with
  | case1 left state hmore failed hextend => obtain ⟨⟨⟩, -⟩ := Prod.mk.inj hresult
  | case2 left state hmore better behind hextend hless ih =>
      exact (onLeftSpine_extend hextend).trans (ih hresult)
  | case3 left state hmore better behind hextend hless =>
      obtain ⟨⟨⟩, -⟩ := Prod.mk.inj hresult
      exact onLeftSpine_extend hextend
  | case4 left state hmore =>
      obtain ⟨⟨⟩, -⟩ := Prod.mk.inj hresult
      exact .root

end Rule

/-- From every parser that operations lead to over a lexer, with any grammar in which the end of
input is no operator, reading at a weak power comes to an end and is what reading at a stronger one
and going on from there is.  If the stronger reading gives up, so does the weaker one, and leaves
the very same parser behind.  If both answer, what the stronger one read is on the left spine of
what the weaker one did. -/
theorem body_eq_absorb {state : Parser Lexer} (hreachable : state.Reachable)
    (hends : state.grammar.operator .eof = none) {weak strong : Power} (hle : weak ≤ strong) :
    (Rule.body expression weak state).2.stalled = false ∧
      (∀ failed, Rule.body expression strong state = (none, failed) →
        Rule.body expression weak state = (none, failed)) ∧
      ∀ left after, Rule.body expression strong state = (some left, after) →
        Rule.body expression weak state = Rule.absorb expression weak left after ∧
          ∀ tree final, Rule.body expression weak state = (some tree, final) →
            left.OnLeftSpine tree := by
  have hstate := hreachable.unstalled hends
  have hsplit := Rule.body_split hle hstate
  refine ⟨?_, ?_, ?_⟩
  · exact ((Keeps.after Parser.Steady (Rule.body expression weak) state).unstalled hstate).unstalled
  · intro failed hfailed
    rw [hsplit, bind_of_none hfailed]
  · intro left after hleft
    rw [bind_of_some hleft] at hsplit
    refine ⟨hsplit, fun tree final htree => ?_⟩
    rw [hsplit] at htree
    exact Rule.onLeftSpine_absorb htree

/-- With a comma as an operator on a par with the signs: at the power of comparisons the comma is
read with both its operands, and at the lowest one it is the left operand of the comparison.  Where
an operand is missing in front of the comma both readings give up. -/
theorem body_eq_absorb_comma :
    let start (source : String) : Parser Lexer :=
      (Operation.run (.setOperator .comma .sum .binary)
        (.ofSupply (Lexer.ofSource source) maxNesting)).2
    (start "f(1) , 2 < 3").Reachable ∧ (start "f(1) , 2 < 3").grammar.operator .eof = none ∧
      (start "f(*) , 2").Reachable ∧ (start "f(*) , 2").grammar.operator .eof = none ∧
      Power.lowest ≤ Power.comparison ∧
      (∃ left after tree final, left.render = "(f(1) , 2)" ∧ tree.render = "((f(1) , 2) < 3)" ∧
        Rule.body expression .comparison (start "f(1) , 2 < 3") = (some left, after) ∧
        Rule.body expression .lowest (start "f(1) , 2 < 3") = (some tree, final) ∧
        Rule.absorb expression .lowest left after = (some tree, final) ∧ left.OnLeftSpine tree) ∧
      ∃ failed, Rule.body expression .comparison (start "f(*) , 2") = (none, failed) ∧
        Rule.body expression .lowest (start "f(*) , 2") = (none, failed) := by
  intro start
  have hreachable (source : String) : (start source).Reachable := .run _ (.new _)
  have hends (source : String) : (start source).grammar.operator .eof = none := rfl
  have hle : Power.lowest ≤ Power.comparison := by decide
  have hleft : (Rule.body expression .comparison (start "f(1) , 2 < 3")).1.map Expr.render =
      some "(f(1) , 2)" := by
    decide +kernel
  have htree : (Rule.body expression .lowest (start "f(1) , 2 < 3")).1.map Expr.render =
      some "((f(1) , 2) < 3)" := by
    decide +kernel
  have hnone : (Rule.body expression .comparison (start "f(*) , 2")).1.map Expr.render = none := by
    decide +kernel
  refine ⟨hreachable _, hends _, hreachable _, hends _, by decide, ?_, ?_⟩
  · obtain ⟨-, -, hresumed⟩ := body_eq_absorb (hreachable "f(1) , 2 < 3") (hends _) hle
    rcases hstrong : Rule.body expression .comparison (start "f(1) , 2 < 3") with
      ⟨_ | left, after⟩ <;> rw [hstrong] at hleft
    · contradiction
    · rcases hweak : Rule.body expression .lowest (start "f(1) , 2 < 3") with ⟨_ | tree, final⟩ <;>
        rw [hweak] at htree
      · contradiction
      · obtain ⟨habsorb, hspine⟩ := hresumed left after hstrong
        exact ⟨left, after, tree, final, Option.some.inj hleft, Option.some.inj htree, rfl, rfl,
          habsorb ▸ hweak, hspine tree final hweak⟩
  · obtain ⟨-, hfails, -⟩ := body_eq_absorb (hreachable "f(*) , 2") (hends _) hle
    rcases hstrong : Rule.body expression .comparison (start "f(*) , 2") with
      ⟨_ | left, failed⟩ <;> rw [hstrong] at hnone
    · exact ⟨failed, rfl, hfails failed hstrong⟩
    · contradiction

end ExprLang
