/-
The tokens that the nodes of a tree are known by, in the order of the source, and what it is for the
nodes to agree with them.  Unlike a well-formed tree, one that agrees with its tokens may lack the
values of bindings and returns, but the token of an expression statement is not just any.  A tree is
gathered from a run of tokens if it agrees with its own and these are found in the run in their
order; each construct is gathered from what its parts are gathered from, with its own tokens in
between and any others besides.
-/
import ExprLang.Proofs.Canonical

namespace ExprLang

/-- The binary operators. -/
def binaryTokens : List Token :=
  [⟨.equals, "=="⟩, ⟨.notEquals, "!="⟩, ⟨.less, "<"⟩, ⟨.greater, ">"⟩, ⟨.plus, "+"⟩,
    ⟨.minus, "-"⟩, ⟨.asterisk, "*"⟩, ⟨.slash, "/"⟩]

theorem Token.mem_binaryTokens {token : Token} {stratum : Stratum} (hspelled : token.Spelled)
    (hkind : token.kind ∈ stratum.operators) : token ∈ binaryTokens := by
  obtain ⟨kind, lexeme⟩ := token
  obtain rfl : lexeme = kind.name := hspelled.lexeme_eq (Stratum.spelling?_of_mem hkind)
  cases stratum <;> simp [Stratum.operators] at hkind <;> rcases hkind with rfl | rfl <;> decide

mutual

/-- The tokens of the nodes of an expression, in the order of the source. -/
def Expr.nodeTokens : Expr → List Token
  | .ident id => [id.token]
  | .integer token _ | .boolean token _ => [token]
  | .unary token _ operand => token :: operand.nodeTokens
  | .binary token _ left right => left.nodeTokens ++ token :: right.nodeTokens
  | .conditional token condition consequent none =>
      token :: (condition.nodeTokens ++ consequent.nodeTokens)
  | .conditional token condition consequent (some alternative) =>
      token :: (condition.nodeTokens ++ (consequent.nodeTokens ++ alternative.nodeTokens))
  | .function token parameters body => token :: (parameters.map Ident.token ++ body.nodeTokens)
  | .call token callee arguments => callee.nodeTokens ++ token :: Expr.nodeTokensEach arguments

def Expr.nodeTokensEach : List Expr → List Token
  | [] => []
  | first :: rest => first.nodeTokens ++ Expr.nodeTokensEach rest

/-- An expression statement has no token but those of its expression. -/
def Stmt.nodeTokens : Stmt → List Token
  | .binding token id none => [token, id.token]
  | .binding token id (some value) => token :: id.token :: value.nodeTokens
  | .returning token none => [token]
  | .returning token (some value) => token :: value.nodeTokens
  | .expression _ value => value.nodeTokens

def Stmt.nodeTokensEach : List Stmt → List Token
  | [] => []
  | first :: rest => first.nodeTokens ++ Stmt.nodeTokensEach rest

def Block.nodeTokens : Block → List Token
  | ⟨token, statements⟩ => token :: Stmt.nodeTokensEach statements

end

def Program.nodeTokens (program : Program) : List Token :=
  Stmt.nodeTokensEach program.statements

mutual

/-- Every node of an expression, at any depth, agrees with its token. -/
def Expr.Agrees : Expr → Prop
  | .ident id => id.WellFormed
  | .integer token value =>
      token.kind = .integer ∧ isDigitRun token.lexeme.toList = true ∧
        decimalValue token.lexeme.toList ≤ maxInteger ∧
        value.toInt = decimalValue token.lexeme.toList
  | .boolean token value => token = if value then ⟨.kwTrue, "true"⟩ else ⟨.kwFalse, "false"⟩
  | .unary token operator operand =>
      (token = ⟨.minus, "-"⟩ ∨ token = ⟨.bang, "!"⟩) ∧ operator = token.lexeme ∧ operand.Agrees
  | .binary token operator left right =>
      token ∈ binaryTokens ∧ operator = token.lexeme ∧ left.Agrees ∧ right.Agrees
  | .conditional token condition consequent none =>
      token = ⟨.kwIf, "if"⟩ ∧ condition.Agrees ∧ consequent.Agrees
  | .conditional token condition consequent (some alternative) =>
      token = ⟨.kwIf, "if"⟩ ∧ condition.Agrees ∧ consequent.Agrees ∧ alternative.Agrees
  | .function token parameters body =>
      token = ⟨.kwFn, "fn"⟩ ∧ (∀ id ∈ parameters, id.WellFormed) ∧ body.Agrees
  | .call token callee arguments =>
      token = ⟨.openParen, "("⟩ ∧ callee.Agrees ∧ Expr.AgreesEach arguments

def Expr.AgreesEach : List Expr → Prop
  | [] => True
  | first :: rest => first.Agrees ∧ Expr.AgreesEach rest

/-- The token of an expression statement is the leftmost one of the expression, unless a parenthesis
is in front of that. -/
def Stmt.Agrees : Stmt → Prop
  | .binding token id none => token = ⟨.kwLet, "let"⟩ ∧ id.WellFormed
  | .binding token id (some value) => token = ⟨.kwLet, "let"⟩ ∧ id.WellFormed ∧ value.Agrees
  | .returning token none => token = ⟨.kwReturn, "return"⟩
  | .returning token (some value) => token = ⟨.kwReturn, "return"⟩ ∧ value.Agrees
  | .expression token value =>
      (token = ⟨.openParen, "("⟩ ∨ value.nodeTokens.head? = some token) ∧ value.Agrees

def Stmt.AgreesEach : List Stmt → Prop
  | [] => True
  | first :: rest => first.Agrees ∧ Stmt.AgreesEach rest

def Block.Agrees : Block → Prop
  | ⟨token, statements⟩ => token = ⟨.openCurly, "\x7b"⟩ ∧ Stmt.AgreesEach statements

end

def Program.Agrees (program : Program) : Prop :=
  Stmt.AgreesEach program.statements

theorem Expr.agreesEach_iff {trees : List Expr} :
    Expr.AgreesEach trees ↔ ∀ tree ∈ trees, tree.Agrees := by
  induction trees with
  | nil => simp [Expr.AgreesEach]
  | cons first rest ih => simp [Expr.AgreesEach, ih]

theorem Stmt.agreesEach_iff {trees : List Stmt} :
    Stmt.AgreesEach trees ↔ ∀ tree ∈ trees, tree.Agrees := by
  induction trees with
  | nil => simp [Stmt.AgreesEach]
  | cons first rest ih => simp [Stmt.AgreesEach, ih]

theorem Expr.nodeTokensEach_eq (trees : List Expr) :
    Expr.nodeTokensEach trees = trees.flatMap Expr.nodeTokens := by
  induction trees with
  | nil => rfl
  | cons first rest ih => rw [Expr.nodeTokensEach, ih, List.flatMap_cons]

theorem Stmt.nodeTokensEach_eq (trees : List Stmt) :
    Stmt.nodeTokensEach trees = trees.flatMap Stmt.nodeTokens := by
  induction trees with
  | nil => rfl
  | cons first rest ih => rw [Stmt.nodeTokensEach, ih, List.flatMap_cons]

@[simp]
theorem Expr.head?_nodeTokens_conditional (token : Token) (condition : Expr) (consequent : Block)
    (alternative : Option Block) :
    (Expr.conditional token condition consequent alternative).nodeTokens.head? = some token := by
  cases alternative <;> rfl

/-- What a tree is made of: something that may agree with its tokens and has these tokens, in the
order of the source. -/
class TreePart (α : Type) where
  agrees : α → Prop
  nodeTokens : α → List Token

instance : TreePart Ident := ⟨Ident.WellFormed, fun id => [id.token]⟩
instance : TreePart Expr := ⟨Expr.Agrees, Expr.nodeTokens⟩
instance : TreePart Stmt := ⟨Stmt.Agrees, Stmt.nodeTokens⟩
instance : TreePart Block := ⟨Block.Agrees, Block.nodeTokens⟩

/-- Parts of a tree, one after the other, agree with their tokens, and these are found among the
tokens of a run in their order. -/
structure Gathered {α : Type} [TreePart α] (parts : List α) (run : List Token) : Prop where
  agrees : ∀ part ∈ parts, TreePart.agrees part
  sublist : (parts.flatMap TreePart.nodeTokens).Sublist run

namespace Gathered

section General

variable {α : Type} [TreePart α] {parts more : List α} {part : α} {run other : List Token}

theorem nil (run : List Token) : Gathered ([] : List α) run :=
  ⟨List.forall_mem_nil _, List.nil_sublist run⟩

theorem singleton_iff :
    Gathered [part] run ↔ TreePart.agrees part ∧ (TreePart.nodeTokens part).Sublist run := by
  constructor
  · intro hpart
    have hsublist := hpart.sublist
    rw [List.flatMap_singleton] at hsublist
    exact ⟨hpart.agrees part List.mem_cons_self, hsublist⟩
  · rintro ⟨hagrees, hsublist⟩
    refine ⟨List.forall_mem_singleton.2 hagrees, ?_⟩
    rwa [List.flatMap_singleton]

/-- What is found in a run is found in a longer one. -/
theorem mono (hparts : Gathered parts run) (hsublist : run.Sublist other) : Gathered parts other :=
  ⟨hparts.agrees, hparts.sublist.trans hsublist⟩

theorem append (hparts : Gathered parts run) (hmore : Gathered more other) :
    Gathered (parts ++ more) (run ++ other) := by
  refine ⟨List.forall_mem_append.2 ⟨hparts.agrees, hmore.agrees⟩, ?_⟩
  rw [List.flatMap_append]
  exact hparts.sublist.append hmore.sublist

/-- Any token may be in front. -/
theorem cons (hparts : Gathered parts run) (token : Token) : Gathered parts (token :: run) :=
  hparts.mono (List.sublist_cons_self token run)

/-- Any tokens may be behind. -/
theorem append_right (hparts : Gathered parts run) (tokens : List Token) :
    Gathered parts (run ++ tokens) :=
  hparts.mono (List.sublist_append_left run tokens)

end General

variable {token name : Token} {operand left right condition callee tree : Expr}
  {arguments : List Expr} {value : Option Expr} {statements : List Stmt} {consequent body : Block}
  {alternative : Option Block} {parameters : List Ident} {run more last : List Token}

theorem ident (hspelled : token.Spelled) (hkind : token.kind = .identifier) :
    Gathered [(⟨token, token.lexeme⟩ : Ident)] [token] :=
  singleton_iff.2 ⟨wellFormed_of_identifier hspelled hkind, List.Sublist.refl _⟩

theorem unary (htoken : token = ⟨.minus, "-"⟩ ∨ token = ⟨.bang, "!"⟩)
    (hoperand : Gathered [operand] run) :
    Gathered [Expr.unary token token.lexeme operand] (token :: run) := by
  obtain ⟨hagrees, hsublist⟩ := singleton_iff.1 hoperand
  exact singleton_iff.2 ⟨⟨htoken, rfl, hagrees⟩, hsublist.cons_cons token⟩

theorem binary (hleft : Gathered [left] run) (htoken : token ∈ binaryTokens)
    (hright : Gathered [right] more) :
    Gathered [Expr.binary token token.lexeme left right] (run ++ token :: more) := by
  obtain ⟨hfirst, hbefore⟩ := singleton_iff.1 hleft
  obtain ⟨hsecond, hbehind⟩ := singleton_iff.1 hright
  exact singleton_iff.2
    ⟨⟨htoken, rfl, hfirst, hsecond⟩, hbefore.append (hbehind.cons_cons token)⟩

theorem conditional (htoken : token = ⟨.kwIf, "if"⟩) (hcondition : Gathered [condition] run)
    (hconsequent : Gathered [consequent] more) (halternative : Gathered alternative.toList last) :
    Gathered [Expr.conditional token condition consequent alternative]
      (token :: (run ++ (more ++ last))) := by
  obtain ⟨hfirst, hbefore⟩ := singleton_iff.1 hcondition
  obtain ⟨hsecond, hmiddle⟩ := singleton_iff.1 hconsequent
  cases alternative with
  | none =>
      have hblock := hmiddle.trans (List.sublist_append_left more last)
      exact singleton_iff.2
        ⟨⟨htoken, hfirst, hsecond⟩, (hbefore.append hblock).cons_cons token⟩
  | some arm =>
      obtain ⟨hthird, hbehind⟩ := singleton_iff.1 halternative
      exact singleton_iff.2 ⟨⟨htoken, hfirst, hsecond, hthird⟩,
        (hbefore.append (hmiddle.append hbehind)).cons_cons token⟩

theorem function (htoken : token = ⟨.kwFn, "fn"⟩) (hparameters : Gathered parameters run)
    (hbody : Gathered [body] more) :
    Gathered [Expr.function token parameters body] (token :: (run ++ more)) := by
  obtain ⟨hagrees, hbehind⟩ := singleton_iff.1 hbody
  have hbefore : (parameters.map Ident.token).Sublist run := by
    rw [List.map_eq_flatMap]
    exact hparameters.sublist
  exact singleton_iff.2
    ⟨⟨htoken, hparameters.agrees, hagrees⟩, (hbefore.append hbehind).cons_cons token⟩

theorem call (hcallee : Gathered [callee] run) (htoken : token = ⟨.openParen, "("⟩)
    (harguments : Gathered arguments more) :
    Gathered [Expr.call token callee arguments] (run ++ token :: more) := by
  obtain ⟨hagrees, hbefore⟩ := singleton_iff.1 hcallee
  have hbehind : (Expr.nodeTokensEach arguments).Sublist more := by
    rw [Expr.nodeTokensEach_eq]
    exact harguments.sublist
  exact singleton_iff.2 ⟨⟨htoken, hagrees, Expr.agreesEach_iff.2 harguments.agrees⟩,
    hbefore.append (hbehind.cons_cons token)⟩

theorem block (htoken : token = ⟨.openCurly, "\x7b"⟩) (hstatements : Gathered statements run) :
    Gathered [(⟨token, statements⟩ : Block)] (token :: run) := by
  have hbehind : (Stmt.nodeTokensEach statements).Sublist run := by
    rw [Stmt.nodeTokensEach_eq]
    exact hstatements.sublist
  exact singleton_iff.2
    ⟨⟨htoken, Stmt.agreesEach_iff.2 hstatements.agrees⟩, hbehind.cons_cons token⟩

theorem binding (htoken : token = ⟨.kwLet, "let"⟩) (hspelled : name.Spelled)
    (hname : name.kind = .identifier) (hvalue : Gathered value.toList run) :
    Gathered [Stmt.binding token ⟨name, name.lexeme⟩ value] (token :: name :: run) := by
  have hident := wellFormed_of_identifier hspelled hname
  cases value with
  | none =>
      exact singleton_iff.2
        ⟨⟨htoken, hident⟩, ((List.nil_sublist run).cons_cons name).cons_cons token⟩
  | some tree =>
      obtain ⟨hagrees, hsublist⟩ := singleton_iff.1 hvalue
      exact singleton_iff.2
        ⟨⟨htoken, hident, hagrees⟩, (hsublist.cons_cons name).cons_cons token⟩

theorem returning (htoken : token = ⟨.kwReturn, "return"⟩) (hvalue : Gathered value.toList run) :
    Gathered [Stmt.returning token value] (token :: run) := by
  cases value with
  | none => exact singleton_iff.2 ⟨htoken, (List.nil_sublist run).cons_cons token⟩
  | some tree =>
      obtain ⟨hagrees, hsublist⟩ := singleton_iff.1 hvalue
      exact singleton_iff.2 ⟨⟨htoken, hagrees⟩, hsublist.cons_cons token⟩

end Gathered

/-- An expression is read from a token on: that is its leftmost token, or a parenthesis in front. -/
def Expr.BeginsWith (tree : Expr) (token : Token) : Prop :=
  token = ⟨.openParen, "("⟩ ∨ tree.nodeTokens.head? = some token

/-- An expression begins as its left operand does. -/
theorem Expr.BeginsWith.append {left tree : Expr} {token : Token} {later : List Token}
    (hbegins : left.BeginsWith token) (htree : tree.nodeTokens = left.nodeTokens ++ later) :
    tree.BeginsWith token := by
  rcases hbegins with hparen | hleft
  · exact Or.inl hparen
  · refine Or.inr ?_
    rw [htree, List.head?_append, hleft]
    rfl

theorem Gathered.expressionStatement {token : Token} {tree : Expr} {run : List Token}
    (hbegins : tree.BeginsWith token) (htree : Gathered [tree] run) :
    Gathered [Stmt.expression token tree] run := by
  obtain ⟨hagrees, hsublist⟩ := singleton_iff.1 htree
  exact singleton_iff.2 ⟨⟨hbegins, hagrees⟩, hsublist⟩

end ExprLang
