/-
The tokens in front of a parser as a list.  A supply hands out the tokens of a list in order and
then the end of input for ever; a parser faces a list if its current token, its lookahead and its
supply are that list.
-/
import ExprLang.Parser.State

namespace ExprLang

variable {σ : Type} [TokenSupply σ]

/-- The token that a supply hands out behind so many others. -/
def TokenSupply.nth (supply : σ) : Nat → Token
  | 0 => (pull supply).1
  | n + 1 => nth (pull supply).2 n

/-- A supply that hands out just these tokens before the end of input. -/
def Supplies (supply : σ) (tokens : List Token) : Prop :=
  ∀ n, TokenSupply.nth supply n = tokens.getD n .endOfInput

theorem Supplies.pull_fst {supply : σ} {tokens : List Token} (hsupply : Supplies supply tokens) :
    (TokenSupply.pull supply).1 = tokens.headD .endOfInput := by
  have hfirst := hsupply 0
  cases tokens with
  | nil => simpa [TokenSupply.nth] using hfirst
  | cons token tokens => simpa [TokenSupply.nth] using hfirst

theorem Supplies.pull_snd {supply : σ} {tokens : List Token} (hsupply : Supplies supply tokens) :
    Supplies (TokenSupply.pull supply).2 tokens.tail := by
  intro n
  have hlater := hsupply (n + 1)
  cases tokens with
  | nil => simpa [TokenSupply.nth] using hlater
  | cons token tokens => simpa [TokenSupply.nth] using hlater

/-- A list supplies its own items. -/
theorem supplies_self (tokens : List Token) : Supplies tokens tokens := by
  intro n
  induction n generalizing tokens with
  | zero => cases tokens <;> rfl
  | succ n ih =>
      cases tokens with
      | nil => exact ih []
      | cons token rest =>
          rw [List.getD_cons_succ]
          exact ih rest

namespace Parser

/-- From the lookahead on, a parser has just these tokens in front of it. -/
structure Awaits (state : Parser σ) (tokens : List Token) : Prop where
  peek : state.peek = tokens.headD .endOfInput
  supply : Supplies state.supply tokens.tail

/-- From the current token on, a parser has just these tokens in front of it. -/
structure Faces (state : Parser σ) (tokens : List Token) : Prop where
  current : state.current = tokens.headD .endOfInput
  awaits : state.Awaits tokens.tail

theorem Awaits.advance {state : Parser σ} {tokens : List Token} (hawaits : state.Awaits tokens) :
    state.advance.Faces tokens where
  current := by rw [advance_current, hawaits.peek]
  awaits := ⟨by rw [advance_peek, hawaits.supply.pull_fst], by
    rw [advance_supply]
    exact hawaits.supply.pull_snd⟩

theorem Faces.current_cons {state : Parser σ} {token : Token} {tokens : List Token}
    (hfaces : state.Faces (token :: tokens)) : state.current = token :=
  hfaces.current

theorem Faces.awaits_cons {state : Parser σ} {token : Token} {tokens : List Token}
    (hfaces : state.Faces (token :: tokens)) : state.Awaits tokens :=
  hfaces.awaits

/-- Only the current token, the lookahead and the supply count. -/
theorem Faces.congr {state other : Parser σ} {tokens : List Token} (hfaces : state.Faces tokens)
    (hcurrent : other.current = state.current) (hpeek : other.peek = state.peek)
    (hsupply : other.supply = state.supply) : other.Faces tokens where
  current := hcurrent.trans hfaces.current
  awaits := ⟨hpeek.trans hfaces.awaits.peek, by rw [hsupply]; exact hfaces.awaits.supply⟩

/-- A current token that is not the end of input is the first of the tokens ahead. -/
theorem Faces.exists_cons {state : Parser σ} {tokens : List Token} (hfaces : state.Faces tokens)
    (hkind : state.current.kind ≠ .eof) : ∃ rest, tokens = state.current :: rest := by
  cases tokens with
  | nil => exact absurd (by rw [hfaces.current]; rfl) hkind
  | cons token rest => exact ⟨rest, by rw [hfaces.current_cons]⟩

/-- A parser made from a supply faces the tokens of that supply. -/
theorem faces_ofSupply {supply : σ} {tokens : List Token} (hsupply : Supplies supply tokens)
    (limit : Nat) : (ofSupply supply limit).Faces tokens where
  current := hsupply.pull_fst
  awaits := ⟨hsupply.pull_snd.pull_fst, hsupply.pull_snd.pull_snd⟩

end Parser

end ExprLang
