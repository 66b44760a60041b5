/-
Reading the canonical text of a tree.  The text of a well-formed program is read as its tokens, and
by the derivation of these the program is read back.
-/
import ExprLang.Proofs.Completeness
import ExprLang.Proofs.RenderedText
import ExprLang.Proofs.Soundness

namespace ExprLang

/-- The text of a well-formed program is read back if there is room for its cost, and else the first
error is that expressions are nested too deep. -/
theorem Program.WellFormed.parse_render_cases {program : Program} (hformed : program.WellFormed) :
    (program.cost ≤ maxNesting ∧ parse program.render = (program.canonical, [])) ∨
      (maxNesting < program.cost ∧
        ∃ later, (parse program.render).2 = .nestingTooDeep maxNesting :: later) := by
  have hderives := Stmt.derives_canonicalEach program.statements hformed
  rw [← Program.tokens, ← Program.scanAll_render hformed.coherent] at hderives
  exact parse_complete hderives

/-- Reading the text of a well-formed program gives the program back, with the first token of its
text in each expression statement, if no statement costs more than the limit.  If one does, the
first error is that expressions are nested too deep. -/
theorem parse_render {program : Program} (hformed : program.WellFormed) :
    (program.cost ≤ maxNesting → parse program.render = (program.canonical, [])) ∧
      (maxNesting < program.cost →
        ∃ later, (parse program.render).2 = .nestingTooDeep maxNesting :: later) := by
  constructor
  · intro hfits
    rcases hformed.parse_render_cases with ⟨-, hparse⟩ | ⟨hdeep, -⟩
    · exact hparse
    · exact absurd hfits (Nat.not_le.2 hdeep)
  · intro hdeep
    rcases hformed.parse_render_cases with ⟨hfits, -⟩ | ⟨-, hfault⟩
    · exact absurd hfits (Nat.not_le.2 hdeep)
    · exact hfault

theorem parse_render_negation :
    Program.WellFormed ⟨[.expression .endOfInput
      (.unary ⟨.minus, "-"⟩ "-" (.ident ⟨⟨.identifier, "x"⟩, "x"⟩))]⟩ ∧
    parse (Program.render ⟨[.expression .endOfInput
        (.unary ⟨.minus, "-"⟩ "-" (.ident ⟨⟨.identifier, "x"⟩, "x"⟩))]⟩) =
      (⟨[.expression ⟨.openParen, "("⟩
        (.unary ⟨.minus, "-"⟩ "-" (.ident ⟨⟨.identifier, "x"⟩, "x"⟩))]⟩, []) := by
  have hformed : Program.WellFormed ⟨[.expression .endOfInput
      (.unary ⟨.minus, "-"⟩ "-" (.ident ⟨⟨.identifier, "x"⟩, "x"⟩))]⟩ :=
    ⟨⟨Or.inl rfl, rfl, rfl, rfl, rfl⟩, trivial⟩
  exact ⟨hformed, (parse_render hformed).1 (by decide)⟩

/-- What is read without errors is well formed. -/
theorem wellFormed_of_parse {source : String} (hparse : (parse source).2 = []) :
    (parse source).1.WellFormed := by
  obtain ⟨depth, -, hprogram⟩ := parse_sound hparse
  exact hprogram.wellFormed fun _ => spelled_of_mem_scanAll

/-- A source that is read without errors has a canonical text that is read without errors exactly if
the program costs no more than the limit.  Then the text of what is read from it is the same, and
else the first error is that expressions are nested too deep. -/
theorem parse_render_parse {source : String} (hparse : (parse source).2 = []) :
    ((parse (parse source).1.render).2 = [] ↔ (parse source).1.cost ≤ maxNesting) ∧
      ((parse source).1.cost ≤ maxNesting →
        (parse (parse source).1.render).1.render = (parse source).1.render) ∧
      (maxNesting < (parse source).1.cost →
        ∃ later, (parse (parse source).1.render).2 = .nestingTooDeep maxNesting :: later) := by
  rcases (wellFormed_of_parse hparse).parse_render_cases with ⟨hcost, hread⟩ | ⟨hcost, hfault⟩
  · have hdeep : ¬ maxNesting < (parse source).1.cost := Nat.not_lt.2 hcost
    rw [hread]
    exact ⟨iff_of_true rfl hcost, fun _ => Program.render_canonical _,
      fun hover => absurd hover hdeep⟩
  · have hfits : ¬ (parse source).1.cost ≤ maxNesting := Nat.not_le.2 hcost
    obtain ⟨later, herrors⟩ := hfault
    rw [herrors]
    exact ⟨iff_of_false (List.cons_ne_nil _ _) hfits, fun hbelow => absurd hbelow hfits,
      fun _ => ⟨later, rfl⟩⟩

example : (parse (parse "a + b * -c; f(x, 1)").1.render).1.render =
    "(a + (b * (-c))); f(x, 1)" := by
  decide +kernel

theorem parse_render_parse_operators :
    (parse "1 + -2 * f(3)").2 = [] ∧
      (parse (parse "1 + -2 * f(3)").1.render).2 = [] ∧
      (parse (parse "1 + -2 * f(3)").1.render).1.render = (parse "1 + -2 * f(3)").1.render := by
  have hparse : (parse "1 + -2 * f(3)").2 = [] := by decide +kernel
  have hcost : (parse "1 + -2 * f(3)").1.cost ≤ maxNesting := by decide +kernel
  have hboth := parse_render_parse hparse
  exact ⟨hparse, hboth.1.2 hcost, hboth.2.1 hcost⟩

/-- The number one behind so many minus signs. -/
def Expr.negations : Nat → Expr
  | 0 => .integer ⟨.integer, "1"⟩ 1
  | count + 1 => .unary ⟨.minus, "-"⟩ "-" (Expr.negations count)

theorem Expr.cost_negations (count : Nat) : (Expr.negations count).cost = 2 * count + 1 := by
  induction count with
  | zero => rfl
  | succ count ih =>
      rw [Expr.negations, Expr.cost, ih]
      omega

theorem derives_negations (count : Nat) :
    Derives (.expression .unary (.negations count))
      (List.replicate count ⟨.minus, "-"⟩ ++ [⟨.integer, "1"⟩]) (count + 1) := by
  induction count with
  | zero => exact (Derives.integer rfl rfl (by decide)).loosen (by decide)
  | succ count ih =>
      rw [Nat.add_comm (count + 1) 1]
      exact .unary (Or.inl rfl) ih

theorem scanAll_negations (count : Nat) :
    scanAll (List.replicate count '-' ++ ['1']) =
      List.replicate count ⟨.minus, "-"⟩ ++ [⟨.integer, "1"⟩] := by
  induction count with
  | zero => exact (scanAll_of_not_blank rfl []).trans (congrArg _ scanAll_nil)
  | succ count ih => exact (scanAll_mark_cons rfl _).trans (congrArg _ ih)

/-- Every minus sign opens one expression in the source and two in its canonical text, so between
128 and 255 of them the source is read without errors and the text is not. -/
theorem parse_negations {count : Nat} (hlow : 128 ≤ count) (hhigh : count ≤ 255) :
    (parse (String.ofList (List.replicate count '-' ++ ['1']))).2 = [] ∧
      (parse (parse (String.ofList (List.replicate count '-' ++ ['1']))).1.render).2 ≠ [] := by
  obtain ⟨fewer, rfl⟩ : ∃ fewer, count = fewer + 1 := ⟨count - 1, by omega⟩
  have hderives : Derives (.statements [.expression ⟨.minus, "-"⟩ (.negations (fewer + 1))])
      (scanAll (String.ofList (List.replicate (fewer + 1) '-' ++ ['1'])).toList)
      (max (fewer + 1 + 1) 0) := by
    have hnone : StartsWithout continuations [] := by
      intro token htoken
      contradiction
    rw [String.toList_ofList, scanAll_negations, ← List.append_nil (_ ++ _)]
    exact .unterminated (.expression (derives_negations (fewer + 1)).loosest) hnone .noStatements
  rcases parse_complete hderives with ⟨-, hparse⟩ | ⟨hdeep, -⟩
  · have hsource : (parse (String.ofList (List.replicate (fewer + 1) '-' ++ ['1']))).2 = [] := by
      rw [hparse]
    have hcost : maxNesting < (Program.mk
        [.expression ⟨.minus, "-"⟩ (.negations (fewer + 1))]).cost := by
      have hnegations := Expr.cost_negations (fewer + 1)
      rw [Program.cost, Stmt.costEach, Stmt.costEach, Stmt.cost, hnegations, maxNesting]
      omega
    have hformed := wellFormed_of_parse hsource
    rw [hparse] at hformed ⊢
    refine ⟨rfl, ?_⟩
    rcases hformed.parse_render_cases with ⟨hfits, -⟩ | ⟨-, later, herrors⟩
    · exact absurd hfits (Nat.not_le.2 hcost)
    · rw [herrors]
      exact List.cons_ne_nil _ _
  · rw [maxNesting] at hdeep
    omega

/-- The fewest minus signs that the text is too deep for. -/
theorem parse_negations_of_128 :
    (parse (String.ofList (List.replicate 128 '-' ++ ['1']))).2 = [] ∧
      (parse (parse (String.ofList (List.replicate 128 '-' ++ ['1']))).1.render).2 ≠ [] :=
  parse_negations (by decide) (by decide)

end ExprLang
