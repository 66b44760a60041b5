/-
The state of a parser: a supply of tokens read with one token of lookahead, the grammar in force,
how many expressions are open, and what has been recorded so far.
-/
import ExprLang.Event
import ExprLang.Grammar
import ExprLang.TokenSupply
import ExprLang.Tree

namespace ExprLang

/-- How many expressions may be open at once. -/
def maxNesting : Nat := 256

/-- A parser over a supply of tokens.  `depth` counts the expressions that are open and `peak` is
the greatest depth there has been; errors and reports are kept in the order in which they arise.
`stalled` tells that a repetition was given up because it would never have ended. -/
structure Parser (σ : Type) where
  supply : σ
  current : Token
  peek : Token
  grammar : Grammar
  limit : Nat
  depth : Nat
  peak : Nat
  errors : Array SyntaxError
  log : Array Event
  stalled : Bool

namespace Parser

variable {σ : Type}

/-- Adds an error, and reports it. -/
def record (error : SyntaxError) (state : Parser σ) : Parser σ :=
  { state with errors := state.errors.push error, log := state.log.push (.recorded error) }

/-- The lookahead becomes current and the next token is pulled. -/
def advance [TokenSupply σ] (state : Parser σ) : Parser σ :=
  let (token, supply) := TokenSupply.pull state.supply
  { state with
    supply := supply
    current := state.peek
    peek := token
    log := state.log.push (.pulled token) }

/-- A parser whose current token is the first of a supply. -/
def ofSupply [TokenSupply σ] (supply : σ) (limit : Nat) : Parser σ :=
  advance (advance ⟨supply, .endOfInput, .endOfInput, .standard, limit, 0, 0, #[], #[], false⟩)

def currentIs (kind : TokenKind) (state : Parser σ) : Bool :=
  decide (state.current.kind = kind)

def peekIs (kind : TokenKind) (state : Parser σ) : Bool :=
  decide (state.peek.kind = kind)

/-- The current token as a name, whatever its kind. -/
def currentIdent (state : Parser σ) : Ident :=
  ⟨state.current, state.current.lexeme⟩

def currentPower (state : Parser σ) : Power :=
  state.grammar.power state.current.kind

def peekPower (state : Parser σ) : Power :=
  state.grammar.power state.peek.kind

/-- Opens one more expression and answers whether there was room; without room an error is
recorded instead. -/
def enter (state : Parser σ) : Bool × Parser σ :=
  if state.depth < state.limit then
    (true, { state with depth := state.depth + 1, peak := max state.peak (state.depth + 1) })
  else (false, state.record (.nestingTooDeep state.limit))

/-- Closes one expression; with none open nothing changes. -/
def leave (state : Parser σ) : Parser σ :=
  { state with depth := state.depth - 1 }

/-- A bound on the tokens that are still to be worked on, the end of input not counted. -/
def ahead [TokenSupply σ] (state : Parser σ) : Nat :=
  (if state.current.kind = .eof then 0 else 1) + (if state.peek.kind = .eof then 0 else 1) +
    TokenSupply.ahead state.supply

@[simp]
theorem currentIs_iff {kind : TokenKind} {state : Parser σ} :
    state.currentIs kind = true ↔ state.current.kind = kind := by
  simp [currentIs]

@[simp]
theorem peekIs_iff {kind : TokenKind} {state : Parser σ} :
    state.peekIs kind = true ↔ state.peek.kind = kind := by
  simp [peekIs]

@[simp]
theorem advance_current [TokenSupply σ] (state : Parser σ) :
    state.advance.current = state.peek :=
  rfl

@[simp]
theorem advance_peek [TokenSupply σ] (state : Parser σ) :
    state.advance.peek = (TokenSupply.pull state.supply).1 :=
  rfl

@[simp]
theorem advance_supply [TokenSupply σ] (state : Parser σ) :
    state.advance.supply = (TokenSupply.pull state.supply).2 :=
  rfl

/-- The part of the bound that the lookahead after a pull and the supply behind it make up is no
greater than the supply before was. -/
theorem pulled_add_ahead_le [TokenSupply σ] (supply : σ) :
    (if (TokenSupply.pull supply).1.kind = .eof then 0 else 1) +
      TokenSupply.ahead (TokenSupply.pull supply).2 ≤ TokenSupply.ahead supply := by
  by_cases hkind : (TokenSupply.pull supply).1.kind = .eof
  · have hle := TokenSupply.ahead_pull_le supply
    rw [if_pos hkind]
    omega
  · have hlt := TokenSupply.ahead_pull_lt supply hkind
    rw [if_neg hkind]
    omega

theorem ahead_advance [TokenSupply σ] (state : Parser σ) :
    state.advance.ahead =
      (if state.peek.kind = .eof then 0 else 1) +
        (if (TokenSupply.pull state.supply).1.kind = .eof then 0 else 1) +
          TokenSupply.ahead (TokenSupply.pull state.supply).2 :=
  rfl

theorem ahead_advance_le [TokenSupply σ] (state : Parser σ) :
    state.advance.ahead ≤ state.ahead := by
  have hpulled := pulled_add_ahead_le state.supply
  rw [ahead_advance, ahead]
  omega

/-- Moving on from a token that is not the end of input leaves fewer to work on. -/
theorem ahead_advance_lt [TokenSupply σ] {state : Parser σ} (hkind : state.current.kind ≠ .eof) :
    state.advance.ahead < state.ahead := by
  have hpulled := pulled_add_ahead_le state.supply
  rw [ahead_advance, ahead, if_neg hkind]
  omega

end Parser

end ExprLang
