/-
What a parser does depends on the tokens that are left in front of it and not on where they come
from.  Parsers over any two supplies with the same tokens left are alike, and stay alike through
every operation; a source is read the same by its own lexer and from the list of its tokens.
-/
import ExprLang.Proofs.Operating
import ExprLang.Proofs.Recursion
import ExprLang.Proofs.Spelling

namespace ExprLang

variable {σ τ α β : Type} [TokenSupply σ] [TokenSupply τ]

namespace Parser

/-- The parser that has moved on so many times. -/
def advanceBy (state : Parser σ) : Nat → Parser σ
  | 0 => state
  | count + 1 => (state.advanceBy count).advance

theorem advanceBy_succ (state : Parser σ) (count : Nat) :
    state.advanceBy (count + 1) = state.advance.advanceBy count := by
  induction count with
  | zero => rfl
  | succ count ih => rw [advanceBy, ih, advanceBy]

theorem advanceBy_add (state : Parser σ) (first second : Nat) :
    state.advanceBy (first + second) = (state.advanceBy first).advanceBy second := by
  induction second with
  | zero => rfl
  | succ second ih => rw [← Nat.add_assoc, advanceBy, ih, advanceBy]

theorem ahead_advanceBy_le (state : Parser σ) (count : Nat) :
    (state.advanceBy count).ahead ≤ state.ahead := by
  induction count with
  | zero => exact Nat.le_refl _
  | succ count ih => exact Nat.le_trans (ahead_advance_le _) ih

/-- Two parsers at the same place of the same supply. -/
structure SamePlace (first second : Parser σ) : Prop where
  current : first.current = second.current
  peek : first.peek = second.peek
  supply : first.supply = second.supply

omit [TokenSupply σ] in
theorem SamePlace.trans {first second third : Parser σ} (hfirst : first.SamePlace second)
    (hsecond : second.SamePlace third) : first.SamePlace third :=
  ⟨hfirst.current.trans hsecond.current, hfirst.peek.trans hsecond.peek,
    hfirst.supply.trans hsecond.supply⟩

theorem SamePlace.advance {first second : Parser σ} (hplace : first.SamePlace second) :
    first.advance.SamePlace second.advance where
  current := hplace.peek
  peek := by rw [advance_peek, advance_peek, hplace.supply]
  supply := by rw [advance_supply, advance_supply, hplace.supply]

theorem SamePlace.advanceBy {first second : Parser σ} (hplace : first.SamePlace second)
    (count : Nat) : (first.advanceBy count).SamePlace (second.advanceBy count) := by
  induction count with
  | zero => exact hplace
  | succ count ih => exact ih.advance

theorem SamePlace.ahead_eq {first second : Parser σ} (hplace : first.SamePlace second) :
    first.ahead = second.ahead := by
  rw [ahead, ahead, hplace.current, hplace.peek, hplace.supply]

/-- Some number of moves leads from the place of the earlier parser to that of the later one. -/
def Moves (earlier later : Parser σ) : Prop :=
  ∃ count, (earlier.advanceBy count).SamePlace later

instance : Lasting (@Moves σ _) where
  refl state := ⟨0, rfl, rfl, rfl⟩
  trans := by
    rintro first second third ⟨one, hsecond⟩ ⟨two, hthird⟩
    refine ⟨one + two, ?_⟩
    rw [advanceBy_add]
    exact (hsecond.advanceBy two).trans hthird
  advance state := ⟨1, rfl, rfl, rfl⟩
  record state error := ⟨0, rfl, rfl, rfl⟩
  stall state := ⟨0, rfl, rfl, rfl⟩
  nested {state inside} hroom hinside := by
    simp only [enter, hroom, ↓reduceIte] at hinside
    obtain ⟨count, hplace⟩ := hinside
    have hstart : state.SamePlace
        { state with depth := state.depth + 1, peak := max state.peak (state.depth + 1) } :=
      ⟨rfl, rfl, rfl⟩
    have hmoved := (hstart.advanceBy count).trans hplace
    exact ⟨count, hmoved.current, hmoved.peek, hmoved.supply⟩

theorem Moves.ahead_le {earlier later : Parser σ} (hmoves : earlier.Moves later) :
    later.ahead ≤ earlier.ahead := by
  obtain ⟨count, hplace⟩ := hmoves
  rw [← hplace.ahead_eq]
  exact ahead_advanceBy_le earlier count

/-- A parser has just these tokens left before the end of input, and nothing counts as ahead of it
once they are used up. -/
structure HasLeft (state : Parser σ) (tokens : List Token) : Prop where
  faces : state.Faces tokens
  proper : ∀ token ∈ tokens, token.kind ≠ .eof
  dry : (state.advanceBy tokens.length).ahead = 0

namespace HasLeft

variable {state after : Parser σ} {tokens others : List Token}

/-- There is only one list of tokens that a parser has left. -/
theorem unique {state : Parser σ} (hleft : state.HasLeft tokens) (hfaces : state.Faces others)
    (hproper : ∀ token ∈ others, token.kind ≠ .eof) : tokens = others := by
  have hfirst := hleft.proper
  replace hleft := hleft.faces
  induction tokens generalizing state others with
  | nil =>
      cases others with
      | nil => rfl
      | cons token rest =>
          have hkind := hproper token List.mem_cons_self
          rw [← hfaces.current_cons, hleft.current] at hkind
          exact absurd rfl hkind
  | cons token rest ih =>
      have hcurrent : state.current.kind ≠ .eof := by
        rw [hleft.current_cons]
        exact hfirst token List.mem_cons_self
      obtain ⟨later, rfl⟩ := hfaces.exists_cons hcurrent
      have hrest := ih hfaces.awaits_cons.advance
        (fun token htoken => hproper token (List.mem_cons_of_mem _ htoken))
        (fun token htoken => hfirst token (List.mem_cons_of_mem _ htoken))
        hleft.awaits_cons.advance
      rw [hrest, hleft.current_cons]

theorem congr (hleft : state.HasLeft tokens) (hplace : state.SamePlace after) :
    after.HasLeft tokens where
  faces := hleft.faces.congr hplace.current.symm hplace.peek.symm hplace.supply.symm
  proper := hleft.proper
  dry := by rw [← (hplace.advanceBy tokens.length).ahead_eq, hleft.dry]

theorem current_eq {other : Parser τ} (hleft : state.HasLeft tokens)
    (hother : other.HasLeft tokens) : state.current = other.current := by
  rw [hleft.faces.current, hother.faces.current]

theorem peek_eq {other : Parser τ} (hleft : state.HasLeft tokens)
    (hother : other.HasLeft tokens) : state.peek = other.peek := by
  rw [hleft.faces.awaits.peek, hother.faces.awaits.peek]

theorem advance (hleft : state.HasLeft tokens) : state.advance.HasLeft tokens.tail where
  faces := hleft.faces.awaits.advance
  proper token htoken := hleft.proper token (List.mem_of_mem_tail htoken)
  dry := by
    cases tokens with
    | nil => exact Nat.le_zero.1 (hleft.dry ▸ ahead_advance_le state)
    | cons token rest => rw [← hleft.dry, List.length_cons, advanceBy_succ, List.tail_cons]

theorem advanceBy (hleft : state.HasLeft tokens) (count : Nat) :
    (state.advanceBy count).HasLeft (tokens.drop count) := by
  induction count with
  | zero => exact hleft
  | succ count ih =>
      rw [← List.tail_drop]
      exact ih.advance

/-- Further on, too, a parser has a list of tokens left. -/
theorem exists_of_moves (hleft : state.HasLeft tokens) (hmoves : state.Moves after) :
    ∃ rest, after.HasLeft rest := by
  obtain ⟨count, hplace⟩ := hmoves
  exact ⟨_, (hleft.advanceBy count).congr hplace⟩

/-- Only the end of input is behind the end of input. -/
theorem current_kind_ne_eof (hleft : state.HasLeft tokens) (hpeek : state.peek.kind ≠ .eof) :
    state.current.kind ≠ .eof := by
  cases tokens with
  | nil => exact absurd (congrArg Token.kind hleft.faces.awaits.peek) hpeek
  | cons token rest =>
      rw [hleft.faces.current_cons]
      exact hleft.proper token List.mem_cons_self

/-- On its way a parser has fewer tokens ahead exactly when fewer are left. -/
theorem ahead_lt_iff (hleft : state.HasLeft tokens) (hmoves : state.Moves after)
    (hothers : after.HasLeft others) :
    after.ahead < state.ahead ↔ others.length < tokens.length := by
  obtain ⟨count, hplace⟩ := hmoves
  have hmoved := (hleft.advanceBy count).congr hplace
  rw [← hmoved.unique hothers.faces hothers.proper, ← hplace.ahead_eq, List.length_drop]
  cases tokens with
  | nil =>
      have hnone : state.ahead = 0 := hleft.dry
      rw [hnone]
      simp
  | cons token rest =>
      cases count with
      | zero => simp [Parser.advanceBy]
      | succ count =>
          have hkind : state.current.kind ≠ .eof := by
            rw [hleft.faces.current_cons]
            exact hleft.proper token List.mem_cons_self
          have hfewer : (state.advanceBy (count + 1)).ahead ≤ state.advance.ahead := by
            rw [advanceBy_succ]
            exact ahead_advanceBy_le state.advance count
          have hless := Nat.lt_of_le_of_lt hfewer (ahead_advance_lt hkind)
          simp only [List.length_cons]
          omega

/-- Where the supply behind the end of input counts nothing as ahead, the parser has just the tokens
it faces left. -/
theorem of_faces (hfaces : state.Faces tokens) (hproper : ∀ token ∈ tokens, token.kind ≠ .eof)
    (hdry : (state.advanceBy tokens.length).peek.kind = .eof →
      TokenSupply.ahead (state.advanceBy tokens.length).supply = 0) :
    state.HasLeft tokens where
  faces := hfaces
  proper := hproper
  dry := by
    have hlast : (state.advanceBy tokens.length).Faces [] := by
      clear hdry hproper
      induction tokens generalizing state with
      | nil => exact hfaces
      | cons token rest ih =>
          rw [List.length_cons, advanceBy_succ]
          exact ih hfaces.awaits_cons.advance
    have hcurrent : (state.advanceBy tokens.length).current = .endOfInput := hlast.current
    have hpeek : (state.advanceBy tokens.length).peek = .endOfInput := hlast.awaits.peek
    rw [hpeek] at hdry
    rw [ahead, hcurrent, hpeek, hdry rfl]
    rfl

end HasLeft

/-- A parser over a lexer has the tokens of the text in front of it left. -/
theorem hasLeft_ofLexer (lexer : Lexer) (limit : Nat) :
    (ofSupply lexer limit).HasLeft (scanAll lexer.rest) := by
  have hproper : ∀ token ∈ scanAll lexer.rest, token.kind ≠ .eof :=
    fun token htoken => (spelled_of_mem_scanAll htoken).kind_ne_eof
  -- Behind an end of input in the lookahead there is no text.
  have hdry : ∀ count, ((ofSupply lexer limit).advanceBy count).peek.kind = .eof →
      TokenSupply.ahead ((ofSupply lexer limit).advanceBy count).supply = 0 := by
    intro count hpeek
    cases count <;> exact congrArg List.length (Lexer.nextToken_rest_eq_nil hpeek)
  exact .of_faces (faces_ofSupply lexer.supplies_scanAll limit) hproper (hdry _)

theorem supply_advanceBy (state : Parser (List Token)) (count : Nat) :
    (state.advanceBy count).supply = state.supply.drop count := by
  have hpull : ∀ tokens : List Token, (TokenSupply.pull tokens).2 = tokens.tail := by
    rintro (_ | ⟨token, rest⟩) <;> rfl
  induction count with
  | zero => rfl
  | succ count ih => rw [advanceBy, advance_supply, hpull, ih, List.tail_drop]

/-- A parser over a list that closes with the end of input has the tokens in front of that left. -/
theorem hasLeft_ofList {tokens : List Token} (hproper : ∀ token ∈ tokens, token.kind ≠ .eof)
    (limit : Nat) : (ofSupply (tokens ++ [.endOfInput]) limit).HasLeft tokens := by
  have hsupply : Supplies (tokens ++ [Token.endOfInput]) tokens := by
    intro n
    rw [supplies_self, List.getD_eq_getElem?_getD, List.getD_eq_getElem?_getD,
      List.getElem?_append]
    split
    · rfl
    · next hn =>
        rw [List.getElem?_eq_none (Nat.not_lt.1 hn)]
        cases n - tokens.length <;> rfl
  have hstart : (ofSupply (tokens ++ [Token.endOfInput]) limit).supply =
      (tokens ++ [Token.endOfInput]).drop 2 := by
    cases tokens with
    | nil => rfl
    | cons token rest => cases rest <;> rfl
  refine .of_faces (faces_ofSupply hsupply limit) hproper fun _ => ?_
  rw [supply_advanceBy, hstart, List.drop_drop, List.drop_eq_nil_of_le (by simp [Nat.add_comm])]
  rfl

/-- What is seen of a parser: its tokens, the grammar in force, how many expressions are open, the
errors so far, and whether it has stalled. -/
structure View where
  current : Token
  peek : Token
  grammar : Grammar
  depth : Nat
  errors : List SyntaxError
  stalled : Bool

def view (state : Parser σ) : View where
  current := state.current
  peek := state.peek
  grammar := state.grammar
  depth := state.depth
  errors := state.errors.toList
  stalled := state.stalled

/-- Two parsers that cannot be told apart, unless by whether the first had stalled earlier. -/
structure Alike (stuck : Bool) (state : Parser σ) (other : Parser τ) : Prop where
  left : ∃ tokens, state.HasLeft tokens ∧ other.HasLeft tokens
  grammar : state.grammar = other.grammar
  limit : state.limit = other.limit
  depth : state.depth = other.depth
  errors : state.errors.toList = other.errors.toList
  stalled : state.stalled = (stuck || other.stalled)

namespace Alike

variable {stuck : Bool} {state : Parser σ} {other : Parser τ}

theorem current (halike : state.Alike stuck other) : state.current = other.current := by
  obtain ⟨tokens, hstate, hother⟩ := halike.left
  exact hstate.current_eq hother

theorem peek (halike : state.Alike stuck other) : state.peek = other.peek := by
  obtain ⟨tokens, hstate, hother⟩ := halike.left
  exact hstate.peek_eq hother

theorem advance (halike : state.Alike stuck other) :
    state.advance.Alike stuck other.advance where
  left := by
    obtain ⟨tokens, hstate, hother⟩ := halike.left
    exact ⟨tokens.tail, hstate.advance, hother.advance⟩
  grammar := halike.grammar
  limit := halike.limit
  depth := halike.depth
  errors := halike.errors
  stalled := halike.stalled

/-- Only the place counts for the tokens that are left. -/
theorem left_of_samePlace {after : Parser σ} {later : Parser τ} (halike : state.Alike stuck other)
    (hstate : state.SamePlace after) (hother : other.SamePlace later) :
    ∃ tokens, after.HasLeft tokens ∧ later.HasLeft tokens := by
  obtain ⟨tokens, hleft, hright⟩ := halike.left
  exact ⟨tokens, hleft.congr hstate, hright.congr hother⟩

theorem record (halike : state.Alike stuck other) (error : SyntaxError) :
    (state.record error).Alike stuck (other.record error) where
  left := halike.left_of_samePlace ⟨rfl, rfl, rfl⟩ ⟨rfl, rfl, rfl⟩
  grammar := halike.grammar
  limit := halike.limit
  depth := halike.depth
  errors := by rw [record_errors, record_errors, halike.errors]
  stalled := halike.stalled

theorem stall (halike : state.Alike stuck other) :
    Alike stuck { state with stalled := true } { other with stalled := true } where
  left := halike.left_of_samePlace ⟨rfl, rfl, rfl⟩ ⟨rfl, rfl, rfl⟩
  grammar := halike.grammar
  limit := halike.limit
  depth := halike.depth
  errors := halike.errors
  stalled := (Bool.or_true stuck).symm

theorem leave (halike : state.Alike stuck other) : state.leave.Alike stuck other.leave where
  left := halike.left_of_samePlace ⟨rfl, rfl, rfl⟩ ⟨rfl, rfl, rfl⟩
  grammar := halike.grammar
  limit := halike.limit
  depth := congrArg (· - 1) halike.depth
  errors := halike.errors
  stalled := halike.stalled

/-- Both have room for one more open expression, or neither has. -/
theorem enter (halike : state.Alike stuck other) :
    state.enter.1 = other.enter.1 ∧ state.enter.2.Alike stuck other.enter.2 := by
  rw [Parser.enter, Parser.enter, halike.depth, halike.limit]
  split
  · exact ⟨rfl, halike.left_of_samePlace ⟨rfl, rfl, rfl⟩ ⟨rfl, rfl, rfl⟩, halike.grammar, rfl, rfl,
      halike.errors, halike.stalled⟩
  · exact ⟨rfl, halike.record _⟩

theorem view_eq (halike : state.Alike false other) : state.view = other.view := by
  rw [view, view, halike.current, halike.peek, halike.grammar, halike.depth, halike.errors,
    halike.stalled]
  rfl

end Alike

end Parser

/-- Parsers that are alike are worked in the same way, and never part. -/
def Coupling.alike (σ τ : Type) [TokenSupply σ] [TokenSupply τ] (stuck : Bool) :
    Coupling σ τ where
  together := Parser.Alike stuck
  apart _ _ := False
  left := Parser.Moves
  right := Parser.Moves
  lasting_left := inferInstance
  lasting_right := inferInstance
  current := Parser.Alike.current
  peek := Parser.Alike.peek
  grammar := Parser.Alike.grammar
  advance := Parser.Alike.advance
  record _ halike := halike.record _
  stall := Parser.Alike.stall
  ahead {state after other later} halike hleft hright hafter := by
    obtain ⟨tokens, hstate, hother⟩ := halike.left
    obtain ⟨rest, hrest, hlast⟩ := hafter.left
    rw [hstate.ahead_lt_iff hleft hrest, hother.ahead_lt_iff hright hlast]
  apart_left := False.elim
  apart_right := False.elim

namespace Coupling.alike

open ParseM

variable {stuck : Bool}

instance (first : ParseM σ α) (second : ParseM τ α)
    [InStep (Coupling.alike σ τ stuck) first second] :
    InStep (Coupling.alike σ τ stuck) (nested first) (nested second) where
  inStep {state other} halike := by
    obtain ⟨hroom, hinside⟩ := Parser.Alike.enter halike
    unfold nested
    generalize state.enter = entered at hroom hinside ⊢
    generalize other.enter = follows at hroom hinside ⊢
    obtain ⟨room, inside⟩ := entered
    obtain ⟨same, within⟩ := follows
    obtain rfl : room = same := hroom
    cases room with
    | false => exact Or.inl ⟨rfl, hinside⟩
    | true =>
        rcases InStep.meets first second (C := Coupling.alike σ τ stuck) hinside with
          ⟨hanswer, hafter⟩ | hnever
        · exact Or.inl ⟨hanswer, Parser.Alike.leave hafter⟩
        · exact hnever.elim
  keeps_left := by
    have hfirst := InStep.left (Coupling.alike σ τ stuck) first second
    infer_instance
  keeps_right := by
    have hsecond := InStep.right (Coupling.alike σ τ stuck) first second
    infer_instance

instance (power : Power) :
    InStep (Coupling.alike σ τ stuck) (expression power) (expression power) := by
  rw [← Rule.opening_nested, ← Rule.opening_nested]
  refine Rule.opening_inStep (fun _ _ _ => inferInstance) (fun halike => ?_) power
  rw [Parser.Alike.limit halike, Parser.Alike.depth halike]

end Coupling.alike

/-- The end of a program is only reported. -/
theorem Parser.Alike.finish {stuck : Bool} {state : Parser σ}
    {other : Parser τ} (halike : state.Alike stuck other) (count : Nat) :
    (state.finish count).Alike stuck (other.finish count) :=
  ⟨halike.left_of_samePlace ⟨rfl, rfl, rfl⟩ ⟨rfl, rfl, rfl⟩, halike.grammar, halike.limit,
    halike.depth, halike.errors, halike.stalled⟩

namespace Operation

variable {stuck : Bool} {state : Parser σ} {other : Parser τ}

/-- Every operation answers the same on parsers that are alike, and leaves them so. -/
theorem run_alike (operation : Operation) (halike : state.Alike stuck other) :
    (operation.run state).1 = (operation.run other).1 ∧
      (operation.run state).2.Alike stuck (operation.run other).2 := by
  have hgrammar (change : Grammar → Grammar) :
      Parser.Alike stuck { state with grammar := change state.grammar }
        { other with grammar := change other.grammar } :=
    ⟨halike.left_of_samePlace ⟨rfl, rfl, rfl⟩ ⟨rfl, rfl, rfl⟩, congrArg change halike.grammar,
      halike.limit, halike.depth, halike.errors, halike.stalled⟩
  by_cases hparses : operation.parses = true
  · rw [← runWith_expression, ← runWith_expression]
    exact (runWith_inStep (C := .alike σ τ stuck) ExprLang.expression ExprLang.expression
      (fun count _ _ halike => halike.finish count) (fun _ _ _ _ => id) hparses
      halike).resolve_right id
  · cases operation with
    | advance => exact ⟨rfl, halike.advance⟩
    | expect kind =>
        have hexpect := InStep.meets (C := .alike σ τ stuck) (ParseM.expect kind)
          (ParseM.expect kind) halike
        obtain ⟨hanswer, hafter⟩ := hexpect.resolve_right id
        refine ⟨?_, hafter⟩
        simp only [run, hanswer]
    | record error => exact ⟨rfl, halike.record error⟩
    | enter =>
        obtain ⟨hroom, hafter⟩ := halike.enter
        exact ⟨congrArg Outcome.flag hroom, hafter⟩
    | leave => exact ⟨rfl, halike.leave⟩
    | setStatement kind rule => exact ⟨rfl, hgrammar fun grammar => grammar.withStatement kind rule⟩
    | setStart kind rule => exact ⟨rfl, hgrammar fun grammar => grammar.withStart kind rule⟩
    | setOperator kind power rule =>
        exact ⟨rfl, hgrammar fun grammar => grammar.withOperator kind power rule⟩
    | _ => exact absurd rfl hparses

/-- What is seen of a parser, and what is answered and seen behind each of a row of operations. -/
def transcript (operations : List Operation) (state : Parser σ) :
    Parser.View × List (Outcome × Parser.View) :=
  (state.view, (runAll operations state).map fun step => (step.1, step.2.view))

/-- Parsers that are alike and have recorded the same give the same transcript. -/
theorem transcript_eq (operations : List Operation) (halike : state.Alike false other) :
    transcript operations state = transcript operations other := by
  have hsteps : (runAll operations state).map (fun step => (step.1, step.2.view)) =
      (runAll operations other).map fun step => (step.1, step.2.view) := by
    induction operations generalizing state other with
    | nil => rfl
    | cons operation rest ih =>
        obtain ⟨hanswer, hafter⟩ := operation.run_alike halike
        simp only [runAll, List.map_cons, hanswer, hafter.view_eq, ih hafter]
  rw [transcript, transcript, halike.view_eq, hsteps]

end Operation

/-- The lexer behind so many items of its sequence of tokens. -/
def Lexer.skip (lexer : Lexer) : Nat → Lexer
  | 0 => lexer
  | count + 1 => (lexer.skip count).next?.2

namespace Parser

/-- New parsers over lexers that hand out the same tokens are alike. -/
theorem alike_ofLexer {first second : Lexer}
    (hsame : ∀ n, TokenSupply.nth first n = TokenSupply.nth second n) (limit : Nat) :
    (ofSupply first limit).Alike false (ofSupply second limit) where
  left := by
    have hsupply : Supplies second (scanAll first.rest) := by
      intro n
      rw [← hsame, first.supplies_scanAll]
    have hfirst := hasLeft_ofLexer first limit
    have hsecond := hasLeft_ofLexer second limit
    rw [hsecond.unique (faces_ofSupply hsupply limit) hfirst.proper] at hsecond
    exact ⟨_, hfirst, hsecond⟩
  grammar := rfl
  limit := rfl
  depth := rfl
  errors := rfl
  stalled := rfl

/-- A new parser over the list of the tokens of a source is alike to one over the source. -/
theorem alike_ofList (source : String) (limit : Nat) :
    (ofSupply (Lexer.ofSource source) limit).Alike false (ofSupply (tokenize source) limit) where
  left := by
    have hfirst := hasLeft_ofLexer (.ofSource source) limit
    have hsecond := hasLeft_ofList hfirst.proper limit
    rw [tokenize_eq_scanAll]
    exact ⟨_, hfirst, hsecond⟩
  grammar := rfl
  limit := rfl
  depth := rfl
  errors := rfl
  stalled := rfl

end Parser

/-- The program and the errors are the same for parsers that are alike. -/
theorem parseProgram_eq_of_alike {stuck : Bool} {state : Parser σ} {other : Parser τ}
    (halike : state.Alike stuck other) :
    ((parseProgram state).1, (parseProgram state).2.errors.toList) =
      ((parseProgram other).1, (parseProgram other).2.errors.toList) := by
  obtain ⟨hprogram, hafter⟩ := Operation.program.run_alike halike
  exact Prod.ext (Outcome.program.inj hprogram) hafter.errors

/-- What a parser does depends only on the tokens that are left.  Whatever was skipped of two
sources, if what is still handed out is the same then every row of operations on new parsers gives
the same transcript.  Sources of the same tokens are read the same, and so is the list of the tokens
of a source. -/
theorem transcript_eq_of_remaining :
    (∀ (a b : String) (i j : Nat),
      (∀ n, TokenSupply.nth ((Lexer.ofSource a).skip i) n =
        TokenSupply.nth ((Lexer.ofSource b).skip j) n) →
      ∀ operations,
        Operation.transcript operations
            (Parser.ofSupply ((Lexer.ofSource a).skip i) maxNesting) =
          Operation.transcript operations
            (Parser.ofSupply ((Lexer.ofSource b).skip j) maxNesting)) ∧
      (∀ a b : String, tokenize a = tokenize b → parse a = parse b) ∧
      ∀ source : String,
        parse source = ((parseSupply (tokenize source) maxNesting).1,
          (parseSupply (tokenize source) maxNesting).2.errors.toList) := by
  have hlist (source : String) :
      parse source = ((parseSupply (tokenize source) maxNesting).1,
        (parseSupply (tokenize source) maxNesting).2.errors.toList) :=
    parseProgram_eq_of_alike (Parser.alike_ofList source maxNesting)
  refine ⟨fun a b i j hsame operations => ?_, fun a b htokens => ?_, hlist⟩
  · exact Operation.transcript_eq operations (Parser.alike_ofLexer hsame maxNesting)
  · rw [hlist a, hlist b, htokens]

theorem transcript_eq_of_remaining_sum :
    (∀ n, TokenSupply.nth ((Lexer.ofSource "1 + x").skip 1) n =
      TokenSupply.nth ((Lexer.ofSource "2\n+x ").skip 1) n) ∧
      Operation.transcript [.program, .advance, .expect .plus]
          (Parser.ofSupply ((Lexer.ofSource "1 + x").skip 1) maxNesting) =
        Operation.transcript [.program, .advance, .expect .plus]
          (Parser.ofSupply ((Lexer.ofSource "2\n+x ").skip 1) maxNesting) ∧
      tokenize "a-b" = tokenize " a - b" ∧ parse "a-b" = parse " a - b" := by
  have hsame : ∀ n, TokenSupply.nth ((Lexer.ofSource "1 + x").skip 1) n =
      TokenSupply.nth ((Lexer.ofSource "2\n+x ").skip 1) n := by
    have hrest : scanAll ((Lexer.ofSource "1 + x").skip 1).rest =
        scanAll ((Lexer.ofSource "2\n+x ").skip 1).rest := by decide +kernel
    intro n
    rw [Lexer.supplies_scanAll, hrest, ← Lexer.supplies_scanAll]
  have htokens : tokenize "a-b" = tokenize " a - b" := by decide +kernel
  exact ⟨hsame, transcript_eq_of_remaining.1 _ _ 1 1 hsame _, htokens,
    transcript_eq_of_remaining.2.1 _ _ htokens⟩

end ExprLang
