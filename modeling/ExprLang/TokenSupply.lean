/-
Where a parser gets its tokens from.  A supply hands out one token at a time and never runs dry:
behind the last token comes the end of input, as often as it is asked for.  A lexer is a supply, and
so is a list of tokens.
-/
import ExprLang.Lexer

namespace ExprLang

/-- A supply of tokens, with a bound on how many are still to come before the end of input. -/
class TokenSupply (σ : Type) where
  /-- The next token and the supply behind it. -/
  pull : σ → Token × σ
  /-- No fewer than the tokens that come before the end of input. -/
  ahead : σ → Nat
  ahead_pull_le (supply : σ) : ahead (pull supply).2 ≤ ahead supply
  ahead_pull_lt (supply : σ) (hkind : (pull supply).1.kind ≠ .eof) :
    ahead (pull supply).2 < ahead supply

instance : TokenSupply Lexer where
  pull := Lexer.nextToken
  ahead lexer := lexer.rest.length
  ahead_pull_le := Lexer.nextToken_rest_length_le
  ahead_pull_lt _ hkind := Lexer.nextToken_rest_length_lt hkind

/-- A list supplies its items and then the end of input. -/
def pullItem : List Token → Token × List Token
  | [] => (.endOfInput, [])
  | token :: rest => (token, rest)

instance : TokenSupply (List Token) where
  pull := pullItem
  ahead := List.length
  ahead_pull_le tokens := by cases tokens <;> simp [pullItem]
  ahead_pull_lt tokens hkind := by
    cases tokens with
    | nil => exact absurd rfl hkind
    | cons token rest => simp [pullItem]

end ExprLang
