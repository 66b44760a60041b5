/-
Grammars: for each kind of token, how a statement or an expression that starts with it is read, and
how an expression is continued by it.  A grammar is data, so that rules can be replaced; `standard`
is the grammar of the language.
-/
import ExprLang.Token

namespace ExprLang

/-- How tightly an operator binds, weakest first. -/
inductive Power
  | lowest
  | equality
  | comparison
  | sum
  | product
  | unary
  | call
deriving DecidableEq

namespace Power

def rank : Power → Nat
  | lowest => 0
  | equality => 1
  | comparison => 2
  | sum => 3
  | product => 4
  | unary => 5
  | call => 6

instance : LT Power := ⟨fun p q => p.rank < q.rank⟩

instance : LE Power := ⟨fun p q => p.rank ≤ q.rank⟩

instance (p q : Power) : Decidable (p < q) := inferInstanceAs (Decidable (p.rank < q.rank))

instance (p q : Power) : Decidable (p ≤ q) := inferInstanceAs (Decidable (p.rank ≤ q.rank))

theorem lt_iff {p q : Power} : p < q ↔ p.rank < q.rank :=
  Iff.rfl

theorem le_iff {p q : Power} : p ≤ q ↔ p.rank ≤ q.rank :=
  Iff.rfl

/-- Nothing binds more weakly than the lowest power. -/
theorem lowest_le (p : Power) : lowest ≤ p :=
  Nat.zero_le p.rank

end Power

/-- How a statement is read.  `Rule.statement`, which looks the rule up by the kind of a token, is
not among the rules that a grammar can hold: a statement read by it would be read by reading
itself. -/
inductive StatementRule
  | binding
  | returning
  | expression
deriving DecidableEq

/-- How an expression is read from its first token. -/
inductive StartRule
  | ident
  | integer
  | boolean
  | unary
  | grouped
  | conditional
  | function
deriving DecidableEq

/-- How an expression is continued behind its left operand. -/
inductive OperatorRule
  | binary
  | call
deriving DecidableEq

/-- The rules in force, by kind of token.  An operator's power and its rule go together. -/
structure Grammar where
  statementRule : TokenKind → Option StatementRule
  startRule : TokenKind → Option StartRule
  operator : TokenKind → Option (Power × OperatorRule)

namespace Grammar

/-- The power of a kind: that of its operator, the lowest where there is none. -/
def power (grammar : Grammar) (kind : TokenKind) : Power :=
  match grammar.operator kind with
  | none => .lowest
  | some (power, _) => power

/-- Replaces how statements that start with a kind are read. -/
def withStatement (grammar : Grammar) (kind : TokenKind) (rule : StatementRule) : Grammar :=
  { grammar with
    statementRule := fun other => if other = kind then some rule else grammar.statementRule other }

/-- Replaces how expressions that start with a kind are read. -/
def withStart (grammar : Grammar) (kind : TokenKind) (rule : StartRule) : Grammar :=
  { grammar with
    startRule := fun other => if other = kind then some rule else grammar.startRule other }

/-- Replaces how a kind continues an expression, and how tightly. -/
def withOperator (grammar : Grammar) (kind : TokenKind) (power : Power) (rule : OperatorRule) :
    Grammar :=
  { grammar with
    operator := fun other => if other = kind then some (power, rule) else grammar.operator other }

/-- The grammar of the language.  Any statement that is no binding and no return is an
expression. -/
def standard : Grammar where
  statementRule
    | .kwLet => some .binding
    | .kwReturn => some .returning
    | _ => none
  startRule
    | .identifier => some .ident
    | .integer => some .integer
    | .kwTrue | .kwFalse => some .boolean
    | .minus | .bang => some .unary
    | .openParen => some .grouped
    | .kwIf => some .conditional
    | .kwFn => some .function
    | _ => none
  operator
    | .equals | .notEquals => some (.equality, .binary)
    | .less | .greater => some (.comparison, .binary)
    | .plus | .minus => some (.sum, .binary)
    | .asterisk | .slash => some (.product, .binary)
    | .openParen => some (.call, .call)
    | _ => none

theorem power_of_operator_none {grammar : Grammar} {kind : TokenKind}
    (hnone : grammar.operator kind = none) : grammar.power kind = .lowest := by
  simp [power, hnone]

@[simp]
theorem power_withOperator_self (grammar : Grammar) (kind : TokenKind) (power : Power)
    (rule : OperatorRule) : (grammar.withOperator kind power rule).power kind = power := by
  simp [Grammar.power, withOperator]

theorem power_withOperator_of_ne (grammar : Grammar) {kind other : TokenKind} (power : Power)
    (rule : OperatorRule) (hne : other ≠ kind) :
    (grammar.withOperator kind power rule).power other = grammar.power other := by
  simp [Grammar.power, withOperator, hne]

end Grammar

end ExprLang
