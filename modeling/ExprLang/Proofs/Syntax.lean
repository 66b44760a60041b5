/-
The syntax of the language, stated without a parser: which runs of tokens are an expression, a block
or a statement, and which tree they stand for.  Binary operators are stratified, and each stratum
repeats itself on the left.  A derivation is given together with its depth, which counts how many
expressions it opens inside one another.
-/
import ExprLang.Text.Decimal
import ExprLang.Tree

namespace ExprLang

/-- The strata of expressions, loosest first.  Each contains the next. -/
inductive Stratum
  | equality
  | comparison
  | sum
  | product
  | unary
  | application
  | primary
deriving DecidableEq

namespace Stratum

/-- The next tighter stratum.  There is none beyond the primary expressions. -/
def next : Stratum → Stratum
  | equality => comparison
  | comparison => sum
  | sum => product
  | product => unary
  | unary => application
  | application => primary
  | primary => primary

/-- The binary operators of a stratum. -/
def operators : Stratum → List TokenKind
  | equality => [.equals, .notEquals]
  | comparison => [.less, .greater]
  | sum => [.plus, .minus]
  | product => [.asterisk, .slash]
  | unary | application | primary => []

end Stratum

/-- The kinds that go on with an expression in front of them: a binary operator, or the opening
parenthesis of a call. -/
def continuations : List TokenKind :=
  [.equals, .notEquals, .less, .greater, .plus, .minus, .asterisk, .slash, .openParen]

/-- The kinds that an expression can start with. -/
def starters : List TokenKind :=
  [.identifier, .integer, .kwTrue, .kwFalse, .minus, .bang, .openParen, .kwIf, .kwFn]

/-- No token of the given kinds comes first. -/
def StartsWithout (kinds : List TokenKind) (tokens : List Token) : Prop :=
  ∀ token ∈ tokens.head?, token.kind ∉ kinds

/-- Names behind commas. -/
inductive MoreParameters : List Ident → List Token → Prop
  | nil : MoreParameters [] []
  | cons {comma name : Token} {names : List Ident} {tokens : List Token} :
      comma.kind = .comma → name.kind = .identifier → MoreParameters names tokens →
      MoreParameters (⟨name, name.lexeme⟩ :: names) (comma :: name :: tokens)

/-- Names with commas between them, or none. -/
inductive Parameters : List Ident → List Token → Prop
  | nil : Parameters [] []
  | cons {name : Token} {names : List Ident} {tokens : List Token} :
      name.kind = .identifier → MoreParameters names tokens →
      Parameters (⟨name, name.lexeme⟩ :: names) (name :: tokens)

/-- What a run of tokens can be, with the tree it stands for: an expression of some stratum, the
arguments of a call, arguments behind commas, a block, the other arm of a conditional, a statement,
or statements in a row. -/
inductive Phrase
  | expression (stratum : Stratum) (tree : Expr)
  | arguments (trees : List Expr)
  | moreArguments (trees : List Expr)
  | block (tree : Block)
  | alternative (tree : Option Block)
  | statement (tree : Stmt)
  | statements (trees : List Stmt)

/-- `Derives phrase tokens depth` tells that the tokens are the phrase, by a derivation of that
depth.  An expression in parentheses has no node of its own.  Left operands and callees are as deep
as they are by themselves; right operands, arguments, parentheses, conditions and the statements of
blocks lie one level deeper. -/
inductive Derives : Phrase → List Token → Nat → Prop
  | ident {name : Token} : name.kind = .identifier →
      Derives (.expression .primary (.ident ⟨name, name.lexeme⟩)) [name] 1
  | integer {number : Token} : number.kind = .integer → isDigitRun number.lexeme.toList = true →
      decimalValue number.lexeme.toList ≤ maxInteger →
      Derives (.expression .primary
        (.integer number (Int64.ofNat (decimalValue number.lexeme.toList)))) [number] 1
  | boolean {word : Token} : word.kind = .kwTrue ∨ word.kind = .kwFalse →
      Derives (.expression .primary (.boolean word (decide (word.kind = .kwTrue)))) [word] 1
  | grouped {opening closing : Token} {tree : Expr} {tokens : List Token} {depth : Nat} :
      opening.kind = .openParen → Derives (.expression .equality tree) tokens depth →
      closing.kind = .closeParen →
      Derives (.expression .primary tree) (opening :: (tokens ++ [closing])) (1 + depth)
  | conditional {keyword opening closing : Token} {condition : Expr} {consequent : Block}
      {other : Option Block} {first second third : List Token} {d₁ d₂ d₃ : Nat} :
      keyword.kind = .kwIf → opening.kind = .openParen →
      Derives (.expression .equality condition) first d₁ → closing.kind = .closeParen →
      Derives (.block consequent) second d₂ → Derives (.alternative other) third d₃ →
      Derives (.expression .primary (.conditional keyword condition consequent other))
        (keyword :: opening :: (first ++ closing :: (second ++ third))) (1 + max d₁ (max d₂ d₃))
  | function {keyword opening closing : Token} {names : List Ident} {body : Block}
      {first second : List Token} {depth : Nat} :
      keyword.kind = .kwFn → opening.kind = .openParen → Parameters names first →
      closing.kind = .closeParen → Derives (.block body) second depth →
      Derives (.expression .primary (.function keyword names body))
        (keyword :: opening :: (first ++ closing :: second)) (1 + depth)
  | call {opening closing : Token} {callee : Expr} {trees : List Expr}
      {first second : List Token} {d₁ d₂ : Nat} :
      Derives (.expression .application callee) first d₁ → opening.kind = .openParen →
      Derives (.arguments trees) second d₂ → closing.kind = .closeParen →
      Derives (.expression .application (.call opening callee trees))
        (first ++ opening :: (second ++ [closing])) (max d₁ d₂)
  | unary {operator : Token} {tree : Expr} {tokens : List Token} {depth : Nat} :
      operator.kind = .minus ∨ operator.kind = .bang →
      Derives (.expression .unary tree) tokens depth →
      Derives (.expression .unary (.unary operator operator.lexeme tree)) (operator :: tokens)
        (1 + depth)
  | binary {stratum : Stratum} {operator : Token} {left right : Expr} {first second : List Token}
      {d₁ d₂ : Nat} :
      Derives (.expression stratum left) first d₁ → operator.kind ∈ stratum.operators →
      Derives (.expression stratum.next right) second d₂ →
      Derives (.expression stratum (.binary operator operator.lexeme left right))
        (first ++ operator :: second) (max d₁ (1 + d₂))
  | tighter {stratum : Stratum} {tree : Expr} {tokens : List Token} {depth : Nat} :
      Derives (.expression stratum.next tree) tokens depth →
      Derives (.expression stratum tree) tokens depth
  | noArguments : Derives (.arguments []) [] 0
  | arguments {tree : Expr} {trees : List Expr} {first second : List Token} {d₁ d₂ : Nat} :
      Derives (.expression .equality tree) first d₁ → Derives (.moreArguments trees) second d₂ →
      Derives (.arguments (tree :: trees)) (first ++ second) (max (1 + d₁) d₂)
  | noMoreArguments : Derives (.moreArguments []) [] 0
  | moreArguments {comma : Token} {tree : Expr} {trees : List Expr} {first second : List Token}
      {d₁ d₂ : Nat} :
      comma.kind = .comma → Derives (.expression .equality tree) first d₁ →
      Derives (.moreArguments trees) second d₂ →
      Derives (.moreArguments (tree :: trees)) (comma :: (first ++ second)) (max (1 + d₁) d₂)
  | block {opening closing : Token} {trees : List Stmt} {tokens : List Token} {depth : Nat} :
      opening.kind = .openCurly → Derives (.statements trees) tokens depth →
      closing.kind = .closeCurly →
      Derives (.block ⟨opening, trees⟩) (opening :: (tokens ++ [closing])) depth
  | noAlternative : Derives (.alternative none) [] 0
  | alternative {keyword : Token} {tree : Block} {tokens : List Token} {depth : Nat} :
      keyword.kind = .kwElse → Derives (.block tree) tokens depth →
      Derives (.alternative (some tree)) (keyword :: tokens) depth
  | binding {keyword name sign : Token} {tree : Expr} {tokens : List Token} {depth : Nat} :
      keyword.kind = .kwLet → name.kind = .identifier → sign.kind = .assign →
      Derives (.expression .equality tree) tokens depth →
      Derives (.statement (.binding keyword ⟨name, name.lexeme⟩ (some tree)))
        (keyword :: name :: sign :: tokens) depth
  | returning {keyword : Token} {tree : Expr} {tokens : List Token} {depth : Nat} :
      keyword.kind = .kwReturn → Derives (.expression .equality tree) tokens depth →
      Derives (.statement (.returning keyword (some tree))) (keyword :: tokens) depth
  | expression {first : Token} {tree : Expr} {tokens : List Token} {depth : Nat} :
      Derives (.expression .equality tree) (first :: tokens) depth →
      Derives (.statement (.expression first tree)) (first :: tokens) depth
  | noStatements : Derives (.statements []) [] 0
  | terminated {semicolon : Token} {tree : Stmt} {trees : List Stmt} {first second : List Token}
      {d₁ d₂ : Nat} :
      Derives (.statement tree) first d₁ → semicolon.kind = .semicolon →
      Derives (.statements trees) second d₂ →
      Derives (.statements (tree :: trees)) (first ++ semicolon :: second) (max d₁ d₂)
  | unterminated {tree : Stmt} {trees : List Stmt} {first second : List Token} {d₁ d₂ : Nat} :
      Derives (.statement tree) first d₁ → StartsWithout continuations second →
      Derives (.statements trees) second d₂ →
      Derives (.statements (tree :: trees)) (first ++ second) (max d₁ d₂)

/-- Every expression has a first token, of a kind that expressions start with. -/
theorem Derives.exists_starter {stratum : Stratum} {tree : Expr} {tokens : List Token} {depth : Nat}
    (htree : Derives (.expression stratum tree) tokens depth) :
    ∃ first later, tokens = first :: later ∧ first.kind ∈ starters := by
  generalize hphrase : Phrase.expression stratum tree = phrase at htree
  induction htree generalizing stratum tree with
  | ident hkind => exact ⟨_, _, rfl, by simp [starters, hkind]⟩
  | integer hkind => exact ⟨_, _, rfl, by simp [starters, hkind]⟩
  | boolean hkind =>
      rcases hkind with hkind | hkind <;> exact ⟨_, _, rfl, by simp [starters, hkind]⟩
  | grouped hkind => exact ⟨_, _, rfl, by simp [starters, hkind]⟩
  | conditional hkind => exact ⟨_, _, rfl, by simp [starters, hkind]⟩
  | function hkind => exact ⟨_, _, rfl, by simp [starters, hkind]⟩
  | unary hkind => rcases hkind with hkind | hkind <;> exact ⟨_, _, rfl, by simp [starters, hkind]⟩
  | call hcallee _ _ _ ih =>
      obtain ⟨first, later, rfl, hkind⟩ := ih rfl
      exact ⟨first, _, rfl, hkind⟩
  | binary hleft _ _ ih =>
      obtain ⟨first, later, rfl, hkind⟩ := ih rfl
      exact ⟨first, _, rfl, hkind⟩
  | tighter htree ih => exact ih rfl
  | _ => contradiction

/-- Every statement has a first token, which is that of a binding, of a return or of an
expression. -/
theorem Derives.exists_first {tree : Stmt} {tokens : List Token} {depth : Nat}
    (htree : Derives (.statement tree) tokens depth) :
    ∃ first later, tokens = first :: later ∧ first.kind ∈ .kwLet :: .kwReturn :: starters := by
  cases htree with
  | binding hkind => exact ⟨_, _, rfl, by simp [hkind]⟩
  | returning hkind => exact ⟨_, _, rfl, by simp [hkind]⟩
  | expression htree =>
      obtain ⟨first, later, htokens, hkind⟩ := htree.exists_starter
      obtain ⟨rfl, rfl⟩ := List.cons.inj htokens
      exact ⟨_, _, rfl, by simp [hkind]⟩

/-- Every block has a first token, its opening brace. -/
theorem Derives.exists_brace {tree : Block} {tokens : List Token} {depth : Nat}
    (htree : Derives (.block tree) tokens depth) :
    ∃ opening later, tokens = opening :: later ∧ opening.kind = .openCurly := by
  cases htree with
  | block hopening => exact ⟨_, _, rfl, hopening⟩

/-- Arguments behind commas start with a comma, if there are any. -/
theorem Derives.moreArguments_starts {trees : List Expr} {tokens : List Token} {depth : Nat}
    (htrees : Derives (.moreArguments trees) tokens depth) :
    ∀ first ∈ tokens.head?, first.kind = .comma := by
  intro first hfirst
  cases htrees with
  | noMoreArguments => contradiction
  | moreArguments hcomma =>
      obtain rfl := Option.some.inj hfirst
      exact hcomma

/-- Statements in a row start with the first token of a statement, if there are any. -/
theorem Derives.statements_start {trees : List Stmt} {tokens : List Token} {depth : Nat}
    (htrees : Derives (.statements trees) tokens depth) :
    ∀ first ∈ tokens.head?, first.kind ∈ .kwLet :: .kwReturn :: starters := by
  intro first hfirst
  cases htrees with
  | noStatements => contradiction
  | terminated htree =>
      obtain ⟨other, later, rfl, hkind⟩ := htree.exists_first
      obtain rfl := Option.some.inj hfirst
      exact hkind
  | unterminated htree =>
      obtain ⟨other, later, rfl, hkind⟩ := htree.exists_first
      obtain rfl := Option.some.inj hfirst
      exact hkind

/-- Every expression opens at least itself. -/
theorem Derives.depth_pos {stratum : Stratum} {tree : Expr} {tokens : List Token} {depth : Nat}
    (htree : Derives (.expression stratum tree) tokens depth) : 0 < depth := by
  generalize hphrase : Phrase.expression stratum tree = phrase at htree
  induction htree generalizing stratum tree with
  | call _ _ _ _ ih => exact Nat.lt_of_lt_of_le (ih rfl) (Nat.le_max_left _ _)
  | binary _ _ _ ih => exact Nat.lt_of_lt_of_le (ih rfl) (Nat.le_max_left _ _)
  | tighter _ ih => exact ih rfl
  | _ => first | omega | contradiction

theorem StartsWithout.of_append {kinds : List TokenKind} {first second : List Token}
    (hstart : StartsWithout kinds (first ++ second)) : StartsWithout kinds first := by
  intro token htoken
  apply hstart
  rw [List.head?_append, Option.mem_def.1 htoken]
  rfl

theorem StartsWithout.of_cons {kind : TokenKind} {kinds : List TokenKind} {tokens : List Token}
    (hstart : StartsWithout (kind :: kinds) tokens) : StartsWithout kinds tokens :=
  fun token htoken hkind => hstart token htoken (List.mem_cons_of_mem kind hkind)

end ExprLang
