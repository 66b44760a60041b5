/-
How the grammar of the language and the strata of its syntax fit together: which operator belongs to
which stratum, and which stratum an expression read at some power is in.
-/
import ExprLang.Proofs.Recursion
import ExprLang.Proofs.Spelling
import ExprLang.Proofs.Syntax

namespace ExprLang

namespace Stratum

/-- The place of a stratum among them, loosest first. -/
def rank : Stratum → Nat
  | equality => 0
  | comparison => 1
  | sum => 2
  | product => 3
  | unary => 4
  | application => 5
  | primary => 6

/-- The power of the operators of a stratum.  No operator reaches into a unary expression but the
call, and nothing reaches into a call or a primary expression. -/
def power : Stratum → Power
  | equality => .equality
  | comparison => .comparison
  | sum => .sum
  | product => .product
  | unary => .unary
  | application => .call
  | primary => .call

end Stratum

/-- The stratum of the expressions that are read at a power. -/
def Power.stratum : Power → Stratum
  | lowest => .equality
  | equality => .comparison
  | comparison => .sum
  | sum => .product
  | product => .unary
  | unary => .unary
  | call => .unary

/-- Nothing binds more tightly than a call. -/
theorem Power.le_call (p : Power) : p ≤ .call := by
  cases p <;> decide

theorem Power.lt_call {p : Power} (hne : p ≠ .call) : p < .call := by
  cases p <;> first | decide | contradiction

/-- What binds no more tightly than a power binds no more tightly than the operators of the stratum
that is read there. -/
theorem Power.le_power_stratum {p : Power} (hne : p ≠ .call) : p ≤ p.stratum.power := by
  cases p <;> first | decide | contradiction

/-- An expression is in every looser stratum as well. -/
theorem Derives.loosen {loose tight : Stratum} {tree : Expr} {tokens : List Token} {depth : Nat}
    (htree : Derives (.expression tight tree) tokens depth) (hrank : loose.rank ≤ tight.rank) :
    Derives (.expression loose tree) tokens depth := by
  induction hgap : tight.rank - loose.rank generalizing loose with
  | zero =>
      have hsame : loose = tight := by
        cases loose <;> cases tight <;> simp [Stratum.rank] at hrank hgap <;> rfl
      rwa [hsame]
  | succ gap ih =>
      have hnext : loose.next.rank = loose.rank + 1 := by
        cases loose <;> cases tight <;> simp [Stratum.rank] at hgap <;> rfl
      exact .tighter (ih (by omega) (by omega))

/-- Every expression is in the loosest stratum. -/
theorem Derives.loosest {stratum : Stratum} {tree : Expr} {tokens : List Token} {depth : Nat}
    (htree : Derives (.expression stratum tree) tokens depth) :
    Derives (.expression .equality tree) tokens depth :=
  htree.loosen (Nat.zero_le _)

namespace Grammar

theorem standard_operator_of_mem {stratum : Stratum} {kind : TokenKind}
    (hkind : kind ∈ stratum.operators) :
    standard.operator kind = some (stratum.power, .binary) := by
  cases stratum <;> simp [Stratum.operators] at hkind <;> rcases hkind with rfl | rfl <;> rfl

/-- An operator is a binary one of some stratum or the parenthesis of a call. -/
theorem standard_operator_cases {kind : TokenKind} {power : Power} {rule : OperatorRule}
    (hoperator : standard.operator kind = some (power, rule)) :
    (∃ stratum : Stratum, kind ∈ stratum.operators ∧ power = stratum.power ∧ rule = .binary) ∨
      kind = .openParen ∧ power = .call ∧ rule = .call := by
  cases kind <;> simp [standard] at hoperator <;> obtain ⟨rfl, rfl⟩ := hoperator
  case openParen => exact Or.inr ⟨rfl, rfl, rfl⟩
  case equals => exact Or.inl ⟨.equality, by decide, rfl, rfl⟩
  case notEquals => exact Or.inl ⟨.equality, by decide, rfl, rfl⟩
  case less => exact Or.inl ⟨.comparison, by decide, rfl, rfl⟩
  case greater => exact Or.inl ⟨.comparison, by decide, rfl, rfl⟩
  case plus => exact Or.inl ⟨.sum, by decide, rfl, rfl⟩
  case minus => exact Or.inl ⟨.sum, by decide, rfl, rfl⟩
  case asterisk => exact Or.inl ⟨.product, by decide, rfl, rfl⟩
  case slash => exact Or.inl ⟨.product, by decide, rfl, rfl⟩

theorem standard_power_of_operator {kind : TokenKind} {power : Power} {rule : OperatorRule}
    (hoperator : standard.operator kind = some (power, rule)) : standard.power kind = power := by
  rw [Grammar.power, hoperator]

/-- The end of input goes on with nothing. -/
theorem ne_eof_of_standard_operator {kind : TokenKind} {power : Power} {rule : OperatorRule}
    (hoperator : standard.operator kind = some (power, rule)) : kind ≠ .eof := by
  rintro rfl
  contradiction

/-- The end of input starts no expression. -/
theorem ne_eof_of_standard_startRule {kind : TokenKind} {rule : StartRule}
    (hrule : standard.startRule kind = some rule) : kind ≠ .eof := by
  rintro rfl
  contradiction

/-- What reaches beyond the lowest power is exactly what can go on with an expression. -/
theorem standard_lowest_lt_power_iff {kind : TokenKind} :
    Power.lowest < standard.power kind ↔ kind ∈ continuations := by
  cases kind <;> decide

/-- The kind of token that each statement is read from. -/
theorem standard_statementRule_cases (kind : TokenKind) :
    match (standard.statementRule kind).getD .expression with
    | .binding => kind = .kwLet
    | .returning => kind = .kwReturn
    | .expression => kind ≠ .kwLet ∧ kind ≠ .kwReturn := by
  cases kind <;> simp [standard]

/-- What can start an expression starts no other statement. -/
theorem standard_statementRule_of_mem_starters {kind : TokenKind} (hkind : kind ∈ starters) :
    standard.statementRule kind = none := by
  cases kind <;> first | rfl | contradiction

/-- The kind of token that each start of an expression is read from. -/
theorem standard_startRule_cases {kind : TokenKind} {rule : StartRule}
    (hrule : standard.startRule kind = some rule) :
    match rule with
    | .ident => kind = .identifier
    | .integer => kind = .integer
    | .boolean => kind = .kwTrue ∨ kind = .kwFalse
    | .unary => kind = .minus ∨ kind = .bang
    | .grouped => kind = .openParen
    | .conditional => kind = .kwIf
    | .function => kind = .kwFn := by
  cases kind <;> simp [standard] at hrule <;> subst hrule <;> simp

end Grammar

/-- With the grammar of the language, an expression goes on exactly if the lookahead binds more
tightly; a semicolon binds as weakly as what is no operator. -/
theorem Rule.continues_iff {σ : Type} {power : Power} {state : Parser σ}
    (hgrammar : state.grammar = .standard) :
    Rule.continues power state = true ↔ power < Grammar.standard.power state.peek.kind := by
  have hweak : ¬ power < Grammar.standard.power .semicolon := by
    cases power <;> decide
  by_cases hkind : state.peek.kind = .semicolon
  · rw [hkind]
    simp [Rule.continues, Parser.peekIs, hkind, hweak]
  · simp [Rule.continues, Parser.peekIs, hkind, Parser.peekPower, hgrammar]

/-- Where an expression does not go on, the lookahead binds no more tightly. -/
theorem Rule.power_peek_le {σ : Type} {power : Power} {state : Parser σ}
    (hgrammar : state.grammar = .standard) (hstop : Rule.continues power state = false) :
    Grammar.standard.power state.peek.kind ≤ power := by
  rw [← Bool.not_eq_true, Rule.continues_iff hgrammar] at hstop
  exact Nat.not_lt.1 hstop

/-- An operator in the lookahead is taken by its rule. -/
theorem Rule.extend_of_operator {σ : Type} [TokenSupply σ] {inner : Power → ParseM σ Expr}
    {left : Expr} {state : Parser σ} {power : Power} {rule : OperatorRule}
    (hgrammar : state.grammar = .standard)
    (hoperator : Grammar.standard.operator state.peek.kind = some (power, rule)) :
    Rule.extend inner left state = Rule.operatorBy inner left rule state.advance :=
  Rule.extend_of_rule (by rw [hgrammar, hoperator])

namespace Stratum

/-- The right operands of a stratum are read at its power, and are in the next one. -/
theorem power_stratum_of_mem {stratum : Stratum} {kind : TokenKind}
    (hkind : kind ∈ stratum.operators) : stratum.power.stratum = stratum.next := by
  cases stratum <;> simp [operators] at hkind <;> rfl

theorem power_ne_call_of_mem {stratum : Stratum} {kind : TokenKind}
    (hkind : kind ∈ stratum.operators) : stratum.power ≠ .call := by
  cases stratum <;> simp [operators] at hkind <;> decide

/-- A stratum that the operators of another one reach into is no looser than that one. -/
theorem rank_le_of_power_le {loose tight : Stratum} {kind : TokenKind}
    (hkind : kind ∈ loose.operators) (hpower : loose.power ≤ tight.power) :
    loose.rank ≤ tight.rank := by
  cases loose <;> cases tight <;> simp_all [operators, power, rank, Power.le_iff, Power.rank]

/-- Only a call or a primary expression can be called. -/
theorem application_rank_le_of_call_le {stratum : Stratum}
    (hpower : Power.call ≤ stratum.power) : application.rank ≤ stratum.rank := by
  cases stratum <;> simp_all [power, rank, Power.le_iff, Power.rank]

/-- What is read at a weaker power contains the strata of the tighter operators. -/
theorem rank_le_of_lt_power {weak : Power} {stratum : Stratum} {kind : TokenKind}
    (hkind : kind ∈ stratum.operators) (hpower : weak < stratum.power) :
    weak.stratum.rank ≤ stratum.rank := by
  cases weak <;> cases stratum <;>
    simp_all [operators, power, rank, Power.stratum, Power.lt_iff, Power.rank]

/-- The text of a binary operator is the name of its kind. -/
theorem spelling?_of_mem {stratum : Stratum} {kind : TokenKind}
    (hkind : kind ∈ stratum.operators) : kind.spelling? = some kind.name := by
  cases stratum <;> simp [operators] at hkind <;> rcases hkind with rfl | rfl <;> rfl

/-- Whatever can be called can be an operand of every operator. -/
theorem rank_next_le_of_mem {stratum : Stratum} {kind : TokenKind}
    (hkind : kind ∈ stratum.operators) : stratum.next.rank ≤ application.rank := by
  cases stratum <;> simp [operators] at hkind <;> decide

/-- The operators of a stratum go on with every expression that is read at a power of a stratum no
tighter. -/
theorem lt_power_of_rank_le {weak : Power} {stratum : Stratum} {kind : TokenKind}
    (hkind : kind ∈ stratum.operators) (hrank : weak.stratum.rank ≤ stratum.rank) :
    weak < stratum.power := by
  cases weak <;> cases stratum <;>
    simp_all [operators, power, rank, Power.stratum, Power.lt_iff, Power.rank]

/-- The operators of the next stratum bind no more weakly. -/
theorem power_le_power_next (stratum : Stratum) : stratum.power ≤ stratum.next.power := by
  cases stratum <;> decide

theorem rank_le_rank_next (stratum : Stratum) : stratum.rank ≤ stratum.next.rank := by
  cases stratum <;> decide

theorem rank_stratum_le_unary (weak : Power) : weak.stratum.rank ≤ unary.rank := by
  cases weak <;> decide

end Stratum

end ExprLang
