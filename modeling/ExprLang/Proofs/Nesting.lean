/-
How many expressions are open at once.  Every operation that reads part of a program leaves the
depth as it was, and no operation takes it past the limit.  That the depth counts what is really
open is seen from a tally: the same parser over a supply that notes, apart from the depth, when an
expression that was let in begins and ends.
-/
import ExprLang.Proofs.Operating
import ExprLang.Proofs.Recursion

namespace ExprLang

variable {σ α : Type} [TokenSupply σ]

namespace Parser

/-- What any action leaves as it was: the depth and the limit.  In between no more expressions are
open than the limit allows. -/
structure Balanced (earlier later : Parser σ) : Prop where
  depth : later.depth = earlier.depth
  limit : later.limit = earlier.limit
  peak : later.peak ≤ max earlier.peak earlier.limit

instance : Lasting (@Balanced σ) where
  refl state := ⟨rfl, rfl, Nat.le_max_left _ _⟩
  trans {first second third} hfirst hsecond := by
    refine ⟨hsecond.depth.trans hfirst.depth, hsecond.limit.trans hfirst.limit, ?_⟩
    have hpeak := hsecond.peak
    rw [hfirst.limit] at hpeak
    exact Nat.le_trans hpeak (Nat.max_le.2 ⟨hfirst.peak, Nat.le_max_right _ _⟩)
  advance state := ⟨rfl, rfl, Nat.le_max_left _ _⟩
  record state error := ⟨rfl, rfl, Nat.le_max_left _ _⟩
  stall state := ⟨rfl, rfl, Nat.le_max_left _ _⟩
  nested {state inside} hroom hinside := by
    simp only [enter, hroom, ↓reduceIte] at hinside
    obtain ⟨hdepth, hlimit, hpeak⟩ := hinside
    dsimp only at hdepth hlimit hpeak
    refine ⟨?_, hlimit, ?_⟩
    · simp only [leave, hdepth, Nat.add_sub_cancel]
    · simp only [leave]
      omega

/-- No more expressions are open than may be, nor have ever been. -/
structure WithinBounds (state : Parser σ) : Prop where
  limit : state.limit = maxNesting
  depth : state.depth ≤ maxNesting
  peak : state.peak ≤ maxNesting

omit [TokenSupply σ] in
theorem WithinBounds.of_balanced {state after : Parser σ} (hbounds : state.WithinBounds)
    (hbalanced : state.Balanced after) : after.WithinBounds where
  limit := hbalanced.limit.trans hbounds.limit
  depth := by rw [hbalanced.depth]; exact hbounds.depth
  peak := by
    have hpeak := hbalanced.peak
    rw [hbounds.limit] at hpeak
    exact Nat.le_trans hpeak (Nat.max_le.2 ⟨hbounds.peak, Nat.le_refl _⟩)

theorem WithinBounds.of_worked {state after : Parser σ} (hbounds : state.WithinBounds)
    (hworked : state.Worked after) : after.WithinBounds := by
  obtain ⟨hlimit, hdepth, hpeak⟩ := hbounds
  cases hworked with
  | enter hroom => refine ⟨hlimit, ?_, ?_⟩ <;> (dsimp only [opened]; omega)
  | leave => exact ⟨hlimit, Nat.le_trans (Nat.sub_le _ _) hdepth, hpeak⟩
  | advance | record | change => exact ⟨hlimit, hdepth, hpeak⟩

end Parser

/-- An operation that reads part of a program leaves the depth as it was. -/
theorem Operation.run_balanced {operation : Operation} (hparses : operation.parses = true)
    (state : Parser σ) : state.Balanced (operation.run state).2 := by
  rw [← runWith_expression]
  exact keeps_runWith ExprLang.expression hparses
    (fun count state => ⟨rfl, rfl, Nat.le_max_left _ _⟩) state

/-- No operation takes a parser out of bounds. -/
theorem Operation.run_withinBounds (operation : Operation) {state : Parser σ}
    (hbounds : state.WithinBounds) : (operation.run state).2.WithinBounds := by
  by_cases hparses : operation.parses = true
  · exact hbounds.of_balanced (run_balanced hparses state)
  · exact hbounds.of_worked (run_worked hparses state)

/-- Every parser that operations lead to is within bounds. -/
theorem Parser.Reachable.withinBounds {state : Parser σ} (hreachable : state.Reachable) :
    state.WithinBounds := by
  induction hreachable with
  | new supply => exact ⟨rfl, Nat.zero_le _, Nat.zero_le _⟩
  | run operation _ ih => exact operation.run_withinBounds ih

/-- A supply with a tally beside it: how many expressions that were let in are open, and the most
there have been at once. -/
structure Tallied (σ : Type) where
  supply : σ
  opened : Nat
  most : Nat

instance : TokenSupply (Tallied σ) where
  pull tallied :=
    ((TokenSupply.pull tallied.supply).1,
      { tallied with supply := (TokenSupply.pull tallied.supply).2 })
  ahead tallied := TokenSupply.ahead tallied.supply
  ahead_pull_le tallied := TokenSupply.ahead_pull_le tallied.supply
  ahead_pull_lt tallied := TokenSupply.ahead_pull_lt tallied.supply

namespace Parser

/-- The parser with an empty tally. -/
def tally (state : Parser σ) : Parser (Tallied σ) :=
  { state with supply := ⟨state.supply, 0, 0⟩ }

/-- The parser without its tally. -/
def erase (state : Parser (Tallied σ)) : Parser σ :=
  { state with supply := state.supply.supply }

/-- Notes that an expression begins. -/
def begin (state : Parser (Tallied σ)) : Parser (Tallied σ) :=
  { state with
    supply := ⟨state.supply.supply, state.supply.opened + 1,
      max state.supply.most (state.supply.opened + 1)⟩ }

/-- Notes that an expression ends. -/
def close (state : Parser (Tallied σ)) : Parser (Tallied σ) :=
  { state with
    supply := ⟨state.supply.supply, state.supply.opened - 1, state.supply.most⟩ }

end Parser

namespace ParseM

/-- An action whose beginning and end are noted. -/
def noted (action : ParseM (Tallied σ) α) : ParseM (Tallied σ) α := fun state =>
  let (result, after) := action state.begin
  (result, after.close)

/-- Runs an action as one more open expression, and notes it where there is room for it. -/
def tallied (action : ParseM (Tallied σ) α) : ParseM (Tallied σ) α :=
  nested (noted action)

end ParseM

/-- Reads an expression of a given power and keeps the tally of all the expressions in it. -/
def talliedExpression : Power → ParseM (Tallied σ) Expr :=
  Rule.opening ParseM.tallied

/-- An operation with a tally of the expressions that are opened in its course. -/
def Operation.runTallied (operation : Operation) (state : Parser σ) :
    Outcome × Parser (Tallied σ) :=
  operation.runWith talliedExpression state.tally

instance (action : ParseM (Tallied σ) α) [Keeps Parser.Precedes action] :
    Keeps Parser.Precedes (ParseM.noted action) where
  keeps state := by
    obtain ⟨herrors, hahead, hgrammar, hlimit, hdepth⟩ :=
      Keeps.after Parser.Precedes action state.begin
    exact ⟨herrors, hahead, hgrammar, hlimit, hdepth⟩

instance : Deepens (σ := Tallied σ) ParseM.tallied where
  precedes action _ := by
    unfold ParseM.tallied
    infer_instance
  deeper {first second state} hsame := by
    unfold ParseM.tallied
    refine ParseM.nested_congr fun hopen inside hdepth hlimit => ?_
    have hinside : first inside.begin = second inside.begin :=
      hsame hopen inside.begin hdepth hlimit
    rw [ParseM.noted, ParseM.noted, hinside]

/-- An expression with a tally, in terms of itself: it is noted where it is let in, and so is every
expression inside. -/
theorem talliedExpression_eq_tallied (power : Power) :
    (talliedExpression power : ParseM (Tallied σ) Expr) =
      ParseM.tallied (Rule.body talliedExpression power) :=
  Rule.opening_eq_wrap ParseM.tallied power

namespace Parser

/-- What any action keeps of the tally: all that was opened is closed again, and in between there
were no more open than there was room for. -/
structure Tallies (earlier later : Parser (Tallied σ)) : Prop where
  opened : later.supply.opened = earlier.supply.opened
  most : later.supply.most ≤
    max earlier.supply.most (earlier.supply.opened + (earlier.limit - earlier.depth))
  depth : later.depth = earlier.depth
  limit : later.limit = earlier.limit

instance : Lasting (@Tallies σ) where
  refl state := ⟨rfl, Nat.le_max_left _ _, rfl, rfl⟩
  trans {first second third} hfirst hsecond := by
    refine ⟨hsecond.opened.trans hfirst.opened, ?_, hsecond.depth.trans hfirst.depth,
      hsecond.limit.trans hfirst.limit⟩
    have hmost := hsecond.most
    rw [hfirst.opened, hfirst.limit, hfirst.depth] at hmost
    exact Nat.le_trans hmost (Nat.max_le.2 ⟨hfirst.most, Nat.le_max_right _ _⟩)
  advance state := ⟨rfl, Nat.le_max_left _ _, rfl, rfl⟩
  record state error := ⟨rfl, Nat.le_max_left _ _, rfl, rfl⟩
  stall state := ⟨rfl, Nat.le_max_left _ _, rfl, rfl⟩
  nested {state inside} hroom hinside := by
    simp only [enter, hroom, ↓reduceIte] at hinside
    obtain ⟨hopened, hmost, hdepth, hlimit⟩ := hinside
    dsimp only at hopened hmost hdepth hlimit
    refine ⟨hopened, ?_, ?_, hlimit⟩
    · simp only [leave]
      omega
    · simp only [leave, hdepth, Nat.add_sub_cancel]

end Parser

/-- An expression is noted only where the depth has room for it, so the tally stays within the
room. -/
theorem Keeps.tallied (action : ParseM (Tallied σ) α) [Keeps Parser.Tallies action] :
    Keeps Parser.Tallies (ParseM.tallied action) where
  keeps state := by
    by_cases hroom : state.depth < state.limit
    · obtain ⟨hopened, hmost, hdepth, hlimit⟩ :=
        Keeps.after Parser.Tallies action state.opened.begin
      simp only [Parser.begin, Parser.opened] at hopened hmost hdepth hlimit
      rw [ParseM.tallied, ParseM.nested_eq_opened _ hroom, ParseM.opened_apply]
      refine ⟨?_, ?_, ?_, hlimit⟩ <;>
        simp only [Parser.leave, ParseM.noted, Parser.close, Parser.begin, Parser.opened] <;> omega
    · rw [ParseM.tallied, ParseM.nested_eq_record _ hroom]
      exact Enduring.record state _

instance (power : Power) :
    Keeps Parser.Tallies (talliedExpression power : ParseM (Tallied σ) Expr) where
  keeps state := by
    have hkept := Rule.keeps_within (R := @Parser.Tallies σ) ParseM.tallied
      (fun action _ => Keeps.tallied action) (state.limit - state.depth) power
    exact hkept.keeps state

/-- A parser with a tally beside the one without it.  They never part. -/
def Coupling.erasing (σ : Type) [TokenSupply σ] : Coupling (Tallied σ) σ where
  together state other := state.erase = other
  apart _ _ := False
  left _ _ := True
  right _ _ := True
  lasting_left := .trivially
  lasting_right := .trivially
  current htogether := by cases htogether; rfl
  peek htogether := by cases htogether; rfl
  grammar htogether := by cases htogether; rfl
  advance htogether := by cases htogether; rfl
  record _ htogether := by cases htogether; rfl
  stall htogether := by cases htogether; rfl
  ahead htogether _ _ hafter := by cases htogether; cases hafter; exact Iff.rfl
  apart_left := False.elim
  apart_right := False.elim

namespace Coupling.erasing

instance (action : ParseM (Tallied σ) α) : Keeps (Coupling.erasing σ).left action :=
  ⟨fun _ => trivial⟩

instance (action : ParseM σ α) : Keeps (Coupling.erasing σ).right action :=
  ⟨fun _ => trivial⟩

/-- The tally decides nothing about how an expression is opened. -/
theorem tallied_inStep (first : ParseM (Tallied σ) α) (second : ParseM σ α)
    [InStep (Coupling.erasing σ) first second] :
    InStep (Coupling.erasing σ) (ParseM.tallied first) (ParseM.nested second) where
  inStep := by
    rintro state _ rfl
    by_cases hroom : state.depth < state.limit
    · have hopen : state.erase.depth < state.erase.limit := hroom
      have hopened : (Coupling.erasing σ).together state.opened.begin state.erase.opened := rfl
      obtain ⟨hanswer, hafter⟩ := (InStep.meets first second hopened).resolve_right id
      rw [ParseM.tallied, ParseM.nested_eq_opened _ hroom, ParseM.nested_eq_opened _ hopen,
        ParseM.opened_apply, ParseM.opened_apply]
      exact Or.inl ⟨hanswer, congrArg Parser.leave hafter⟩
    · have hfull : ¬ state.erase.depth < state.erase.limit := hroom
      rw [ParseM.tallied, ParseM.nested_eq_record _ hroom, ParseM.nested_eq_record _ hfull]
      exact Or.inl ⟨rfl, rfl⟩

instance (power : Power) : InStep (Coupling.erasing σ) (talliedExpression power)
    (expression power) := by
  rw [← Rule.opening_nested]
  refine Rule.opening_inStep (fun first second _ => tallied_inStep first second) ?_ power
  rintro state _ rfl
  rfl

end Coupling.erasing

/-- An operation with a tally answers what it answers without, and leaves the same parser. -/
theorem Operation.runTallied_erase {operation : Operation} (hparses : operation.parses = true)
    (state : Parser σ) :
    (operation.runTallied state).1 = (operation.run state).1 ∧
      (operation.runTallied state).2.erase = (operation.run state).2 := by
  rw [← runWith_expression]
  have herased (count : Nat) (state : Parser (Tallied σ)) (other : Parser σ)
      (htogether : state.erase = other) : (state.finish count).erase = other.finish count := by
    rw [← htogether]
    rfl
  exact (runWith_inStep (C := .erasing σ) talliedExpression ExprLang.expression herased
    (fun _ _ _ _ => id) hparses rfl).resolve_right id

/-- An operation closes all that it opens, and has no more open at once than there was room for. -/
theorem Operation.runTallied_tallies {operation : Operation} (hparses : operation.parses = true)
    (state : Parser σ) :
    (operation.runTallied state).2.supply.opened = 0 ∧
      (operation.runTallied state).2.supply.most ≤ state.limit - state.depth := by
  have hkept : state.tally.Tallies (operation.runTallied state).2 :=
    keeps_runWith talliedExpression hparses
      (fun count state => ⟨rfl, Nat.le_max_left _ _, rfl, rfl⟩) state.tally
  refine ⟨hkept.opened, ?_⟩
  have hmost := hkept.most
  simp only [Parser.tally, Nat.zero_add, Nat.zero_max] at hmost
  exact hmost

/-- The nesting is accounted for in every parser that operations lead to.  The depth is never past
the limit.  An operation that reads part of a program leaves the depth as it found it; of the
expressions that were let in in its course, as a tally shows that changes nothing else, none is open
in the end and at no time were there more than there was room for. -/
theorem nesting_accounted {state : Parser σ} (hreachable : state.Reachable) :
    state.depth ≤ maxNesting ∧ state.peak ≤ maxNesting ∧
      ∀ operation : Operation, operation.parses = true →
        (operation.run state).2.depth = state.depth ∧
        (operation.runTallied state).1 = (operation.run state).1 ∧
        (operation.runTallied state).2.erase = (operation.run state).2 ∧
        (operation.runTallied state).2.supply.opened = 0 ∧
        (operation.runTallied state).2.supply.most ≤ maxNesting - state.depth := by
  obtain ⟨hlimit, hdepth, hpeak⟩ := hreachable.withinBounds
  refine ⟨hdepth, hpeak, fun operation hparses => ?_⟩
  obtain ⟨hanswer, herase⟩ := Operation.runTallied_erase hparses state
  obtain ⟨hopened, hmost⟩ := Operation.runTallied_tallies hparses state
  rw [hlimit] at hmost
  exact ⟨(Operation.run_balanced hparses state).depth, hanswer, herase, hopened, hmost⟩

/-- Two parentheses around a number are three expressions, one inside the other; the sign behind
them lacks an operand. -/
theorem nesting_accounted_parentheses :
    (Parser.ofSupply (Lexer.ofSource "((1)) * -") maxNesting).Reachable ∧
      (Operation.program.run
        (Parser.ofSupply (Lexer.ofSource "((1)) * -") maxNesting)).2.depth = 0 ∧
      (Operation.program.runTallied
        (Parser.ofSupply (Lexer.ofSource "((1)) * -") maxNesting)).2.supply.opened = 0 ∧
      (Operation.program.runTallied
        (Parser.ofSupply (Lexer.ofSource "((1)) * -") maxNesting)).2.supply.most = 3 ∧
      3 ≤ maxNesting := by
  have hreachable : (Parser.ofSupply (Lexer.ofSource "((1)) * -") maxNesting).Reachable := .new _
  have hmost : (Operation.program.runTallied
      (Parser.ofSupply (Lexer.ofSource "((1)) * -") maxNesting)).2.supply.most = 3 := by
    decide +kernel
  obtain ⟨-, -, hparses⟩ := nesting_accounted hreachable
  obtain ⟨hdepth, -, -, hopened, hbound⟩ := hparses .program rfl
  exact ⟨hreachable, hdepth, hopened, hmost, hmost ▸ hbound⟩

end ExprLang
