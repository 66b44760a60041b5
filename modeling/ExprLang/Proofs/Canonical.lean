/-
The canonical text of a tree as tokens, and how deep it is.  A tree is well formed if each field
agrees with the token it comes from.  The tokens of the canonical text of such a tree are a phrase
of the language, derived as the same tree, where an expression statement now carries the first token
of its text; the parentheses of the text count into the depth.
-/
import ExprLang.Proofs.Precedence
import ExprLang.Proofs.Spelling
import ExprLang.Tree.Render

namespace ExprLang

/-- A name agrees with its token and is no reserved word. -/
def Ident.WellFormed (id : Ident) : Prop :=
  id.token = ⟨.identifier, id.name⟩ ∧ isWord id.name.toList = true ∧
    TokenKind.isReserved id.name = false

mutual

/-- Every field of an expression agrees with its token. -/
def Expr.WellFormed : Expr → Prop
  | .ident id => id.WellFormed
  | .integer token value =>
      token.kind = .integer ∧ isDigitRun token.lexeme.toList = true ∧
        decimalValue token.lexeme.toList ≤ maxInteger ∧
        value = Int64.ofNat (decimalValue token.lexeme.toList)
  | .boolean token value => token = if value then ⟨.kwTrue, "true"⟩ else ⟨.kwFalse, "false"⟩
  | .unary token operator operand =>
      (token = ⟨.minus, "-"⟩ ∨ token = ⟨.bang, "!"⟩) ∧ operator = token.lexeme ∧
        operand.WellFormed
  | .binary token operator left right =>
      (∃ stratum : Stratum, token.kind ∈ stratum.operators) ∧ token.lexeme = token.kind.name ∧
        operator = token.lexeme ∧ left.WellFormed ∧ right.WellFormed
  | .conditional token condition consequent none =>
      token = ⟨.kwIf, "if"⟩ ∧ condition.WellFormed ∧ consequent.WellFormed
  | .conditional token condition consequent (some alternative) =>
      token = ⟨.kwIf, "if"⟩ ∧ condition.WellFormed ∧ consequent.WellFormed ∧ alternative.WellFormed
  | .function token parameters body =>
      token = ⟨.kwFn, "fn"⟩ ∧ (∀ id ∈ parameters, id.WellFormed) ∧ body.WellFormed
  | .call token callee arguments =>
      token = ⟨.openParen, "("⟩ ∧ callee.WellFormed ∧ Expr.WellFormedEach arguments

def Expr.WellFormedEach : List Expr → Prop
  | [] => True
  | first :: rest => first.WellFormed ∧ Expr.WellFormedEach rest

/-- A statement has its value, and every field agrees with its token; the token of an expression
statement may be any. -/
def Stmt.WellFormed : Stmt → Prop
  | .binding token id (some value) => token = ⟨.kwLet, "let"⟩ ∧ id.WellFormed ∧ value.WellFormed
  | .returning token (some value) => token = ⟨.kwReturn, "return"⟩ ∧ value.WellFormed
  | .expression _ value => value.WellFormed
  | .binding _ _ none | .returning _ none => False

def Stmt.WellFormedEach : List Stmt → Prop
  | [] => True
  | first :: rest => first.WellFormed ∧ Stmt.WellFormedEach rest

def Block.WellFormed : Block → Prop
  | ⟨token, statements⟩ => token = ⟨.openCurly, "\x7b"⟩ ∧ Stmt.WellFormedEach statements

end

def Program.WellFormed (program : Program) : Prop :=
  Stmt.WellFormedEach program.statements

mutual

/-- How many expressions the canonical text of an expression opens inside one another.  Every unary
and every binary operation is in parentheses of its own. -/
def Expr.cost : Expr → Nat
  | .ident _ | .integer _ _ | .boolean _ _ => 1
  | .unary _ _ operand => 2 + operand.cost
  | .binary _ _ left right => 1 + max left.cost (1 + right.cost)
  | .conditional _ condition consequent none => 1 + max condition.cost consequent.cost
  | .conditional _ condition consequent (some alternative) =>
      1 + max condition.cost (max consequent.cost alternative.cost)
  | .function _ _ body => 1 + body.cost
  | .call _ callee arguments => max callee.cost (Expr.costEach arguments)

/-- The cost of arguments lies one level deeper than they do. -/
def Expr.costEach : List Expr → Nat
  | [] => 0
  | first :: rest => max (1 + first.cost) (Expr.costEach rest)

def Stmt.cost : Stmt → Nat
  | .binding _ _ (some value) | .returning _ (some value) | .expression _ value => value.cost
  | .binding _ _ none | .returning _ none => 0

def Stmt.costEach : List Stmt → Nat
  | [] => 0
  | first :: rest => max first.cost (Stmt.costEach rest)

def Block.cost : Block → Nat
  | ⟨_, statements⟩ => Stmt.costEach statements

end

/-- The cost of a program is that of its costliest statement. -/
def Program.cost (program : Program) : Nat :=
  Stmt.costEach program.statements

/-- The token that the canonical text of an expression starts with. -/
def Expr.firstToken : Expr → Token
  | .unary _ _ _ | .binary _ _ _ _ => ⟨.openParen, "("⟩
  | .call _ callee _ => callee.firstToken
  | .ident id => id.token
  | .integer token _ | .boolean token _ | .conditional token _ _ _ | .function token _ _ => token

mutual

/-- The same expression, with the first token of the canonical text in each expression statement. -/
def Expr.canonical : Expr → Expr
  | .ident id => .ident id
  | .integer token value => .integer token value
  | .boolean token value => .boolean token value
  | .unary token operator operand => .unary token operator operand.canonical
  | .binary token operator left right => .binary token operator left.canonical right.canonical
  | .conditional token condition consequent none =>
      .conditional token condition.canonical consequent.canonical none
  | .conditional token condition consequent (some alternative) =>
      .conditional token condition.canonical consequent.canonical (some alternative.canonical)
  | .function token parameters body => .function token parameters body.canonical
  | .call token callee arguments => .call token callee.canonical (Expr.canonicalEach arguments)

def Expr.canonicalEach : List Expr → List Expr
  | [] => []
  | first :: rest => first.canonical :: Expr.canonicalEach rest

def Stmt.canonical : Stmt → Stmt
  | .binding token id none => .binding token id none
  | .binding token id (some value) => .binding token id (some value.canonical)
  | .returning token none => .returning token none
  | .returning token (some value) => .returning token (some value.canonical)
  | .expression _ value => .expression value.firstToken value.canonical

def Stmt.canonicalEach : List Stmt → List Stmt
  | [] => []
  | first :: rest => first.canonical :: Stmt.canonicalEach rest

def Block.canonical : Block → Block
  | ⟨token, statements⟩ => ⟨token, Stmt.canonicalEach statements⟩

end

def Program.canonical (program : Program) : Program :=
  ⟨Stmt.canonicalEach program.statements⟩

/-- Runs of tokens one after the other with a mark between neighbours. -/
def separated (mark : Token) : List (List Token) → List Token
  | [] => []
  | [run] => run
  | run :: next :: rest => run ++ mark :: separated mark (next :: rest)

/-- The tokens of a parameter list, without its parentheses. -/
def parameterTokens (parameters : List Ident) : List Token :=
  separated ⟨.comma, ","⟩ (parameters.map fun id => [id.token])

mutual

/-- The tokens of the canonical text of an expression. -/
def Expr.tokens : Expr → List Token
  | .ident id => [id.token]
  | .integer token _ | .boolean token _ => [token]
  | .unary token _ operand => ⟨.openParen, "("⟩ :: (token :: operand.tokens ++ [⟨.closeParen, ")"⟩])
  | .binary token _ left right =>
      ⟨.openParen, "("⟩ :: (left.tokens ++ token :: right.tokens ++ [⟨.closeParen, ")"⟩])
  | .conditional token condition consequent none =>
      token :: ⟨.openParen, "("⟩ :: (condition.tokens ++ ⟨.closeParen, ")"⟩ :: consequent.tokens)
  | .conditional token condition consequent (some alternative) =>
      token :: ⟨.openParen, "("⟩ :: (condition.tokens ++ ⟨.closeParen, ")"⟩ ::
        (consequent.tokens ++ ⟨.kwElse, "else"⟩ :: alternative.tokens))
  | .function token parameters body =>
      token :: ⟨.openParen, "("⟩ ::
        (parameterTokens parameters ++ ⟨.closeParen, ")"⟩ :: body.tokens)
  | .call token callee arguments =>
      callee.tokens ++ token ::
        (separated ⟨.comma, ","⟩ (Expr.tokensEach arguments) ++ [⟨.closeParen, ")"⟩])

def Expr.tokensEach : List Expr → List (List Token)
  | [] => []
  | first :: rest => first.tokens :: Expr.tokensEach rest

def Stmt.tokens : Stmt → List Token
  | .binding token id none => [token, id.token, ⟨.assign, "="⟩]
  | .binding token id (some value) => token :: id.token :: ⟨.assign, "="⟩ :: value.tokens
  | .returning token none => [token]
  | .returning token (some value) => token :: value.tokens
  | .expression _ value => value.tokens

def Stmt.tokensEach : List Stmt → List (List Token)
  | [] => []
  | first :: rest => first.tokens :: Stmt.tokensEach rest

def Block.tokens : Block → List Token
  | ⟨token, statements⟩ =>
      token :: (separated ⟨.semicolon, ";"⟩ (Stmt.tokensEach statements) ++ [⟨.closeCurly, "\x7d"⟩])

end

def Program.tokens (program : Program) : List Token :=
  separated ⟨.semicolon, ";"⟩ (Stmt.tokensEach program.statements)

theorem separated_cons (mark : Token) (run : List Token) (rest : List (List Token)) :
    separated mark (run :: rest) = run ++ rest.flatMap (mark :: ·) := by
  induction rest generalizing run with
  | nil => simp [separated]
  | cons next rest ih => simp [separated, ih]

theorem Expr.exists_tokens_eq_cons : ∀ tree : Expr,
    ∃ later, tree.tokens = tree.firstToken :: later
  | .ident _ | .integer _ _ | .boolean _ _ | .unary _ _ _ | .binary _ _ _ _ | .function _ _ _ =>
      ⟨_, rfl⟩
  | .conditional _ _ _ none | .conditional _ _ _ (some _) => ⟨_, rfl⟩
  | .call token callee arguments => by
      obtain ⟨later, hcallee⟩ := callee.exists_tokens_eq_cons
      exact ⟨_, by rw [Expr.tokens, hcallee, Expr.firstToken, List.cons_append]⟩

namespace Ident.WellFormed

variable {id : Ident}

theorem kind_eq (hformed : id.WellFormed) : id.token.kind = .identifier := by
  rw [hformed.1]

theorem eq_mk (hformed : id.WellFormed) : id = ⟨id.token, id.token.lexeme⟩ := by
  obtain ⟨token, name⟩ := id
  obtain ⟨htoken, -⟩ := hformed
  dsimp only at htoken
  rw [htoken]

end Ident.WellFormed

theorem moreParameters_of_forall {parameters : List Ident}
    (hformed : ∀ id ∈ parameters, id.WellFormed) :
    MoreParameters parameters
      ((parameters.map fun id => [id.token]).flatMap (⟨.comma, ","⟩ :: ·)) := by
  induction parameters with
  | nil => exact .nil
  | cons id rest ih =>
      obtain ⟨hid, hrest⟩ := List.forall_mem_cons.1 hformed
      rw [hid.eq_mk]
      exact .cons rfl hid.kind_eq (ih hrest)

/-- Names with commas between them are a parameter list. -/
theorem parameters_of_forall {parameters : List Ident}
    (hformed : ∀ id ∈ parameters, id.WellFormed) :
    Parameters parameters (parameterTokens parameters) := by
  cases parameters with
  | nil => exact .nil
  | cons id rest =>
      obtain ⟨hid, hrest⟩ := List.forall_mem_cons.1 hformed
      rw [parameterTokens, List.map_cons, separated_cons, hid.eq_mk]
      exact .cons hid.kind_eq (moreParameters_of_forall hrest)

mutual

/-- The tokens of the canonical text of a well-formed expression can be called, whatever the
expression is, and their derivation is as deep as the expression costs. -/
theorem Expr.derives_canonical : ∀ tree : Expr, tree.WellFormed →
    Derives (.expression .application tree.canonical) tree.tokens tree.cost
  | .ident id, hformed => by
      rw [Expr.canonical, Ident.WellFormed.eq_mk hformed]
      exact .tighter (.ident (Ident.WellFormed.kind_eq hformed))
  | .integer token value, hformed => by
      obtain ⟨hkind, hrun, hrange, rfl⟩ := hformed
      exact .tighter (.integer hkind hrun hrange)
  | .boolean token value, hformed => by
      rw [Expr.WellFormed] at hformed
      cases value with
      | true =>
          rw [hformed]
          exact .tighter (.boolean (Or.inl rfl))
      | false =>
          rw [hformed]
          exact .tighter (.boolean (Or.inr rfl))
  | .unary token operator operand, hformed => by
      obtain ⟨htoken, rfl, hoperand⟩ := hformed
      have hkind : token.kind = .minus ∨ token.kind = .bang := by
        rcases htoken with rfl | rfl
        · exact Or.inl rfl
        · exact Or.inr rfl
      have hoperand := operand.derives_canonical hoperand
      have hunary : Derives (.expression .unary (.unary token token.lexeme operand.canonical))
          (token :: operand.tokens) (1 + operand.cost) :=
        .unary hkind (hoperand.loosen (by decide))
      have hcost : 2 + operand.cost = 1 + (1 + operand.cost) := by omega
      rw [Expr.cost, hcost]
      exact .tighter (.grouped rfl hunary.loosest rfl)
  | .binary token operator left right, hformed => by
      obtain ⟨⟨stratum, hkind⟩, -, rfl, hleft, hright⟩ := hformed
      have hrank := Stratum.rank_next_le_of_mem hkind
      have hleft := left.derives_canonical hleft
      have hright := right.derives_canonical hright
      have hbinary := Derives.binary
        (hleft.loosen (Nat.le_trans stratum.rank_le_rank_next hrank)) hkind (hright.loosen hrank)
      exact .tighter (.grouped rfl hbinary.loosest rfl)
  | .conditional token condition consequent none, hformed => by
      obtain ⟨rfl, hcondition, hconsequent⟩ := hformed
      have hcondition := (condition.derives_canonical hcondition).loosest
      have hwhole : Derives
          (.expression .primary
            (.conditional ⟨.kwIf, "if"⟩ condition.canonical consequent.canonical none))
          (⟨.kwIf, "if"⟩ :: ⟨.openParen, "("⟩ ::
            (condition.tokens ++ ⟨.closeParen, ")"⟩ :: (consequent.tokens ++ [])))
          (1 + max condition.cost (max consequent.cost 0)) :=
        .conditional rfl rfl hcondition rfl (consequent.derives_canonical hconsequent)
          .noAlternative
      rw [List.append_nil, Nat.max_zero] at hwhole
      exact .tighter hwhole
  | .conditional token condition consequent (some alternative), hformed => by
      obtain ⟨rfl, hcondition, hconsequent, halternative⟩ := hformed
      have hcondition := (condition.derives_canonical hcondition).loosest
      exact .tighter (.conditional rfl rfl hcondition rfl
        (consequent.derives_canonical hconsequent)
        (.alternative rfl (alternative.derives_canonical halternative)))
  | .function token parameters body, hformed => by
      obtain ⟨rfl, hparameters, hbody⟩ := hformed
      exact .tighter (.function rfl rfl (parameters_of_forall hparameters) rfl
        (body.derives_canonical hbody))
  | .call token callee [], hformed => by
      obtain ⟨rfl, hcallee, -⟩ := hformed
      exact .call (callee.derives_canonical hcallee) rfl .noArguments rfl
  | .call token callee (first :: rest), hformed => by
      obtain ⟨rfl, hcallee, hfirst, hrest⟩ := hformed
      have hfirst := (first.derives_canonical hfirst).loosest
      rw [Expr.tokens, Expr.tokensEach, separated_cons]
      exact .call (callee.derives_canonical hcallee) rfl
        (.arguments hfirst (Expr.derives_canonicalEach rest hrest)) rfl

/-- Arguments behind commas. -/
theorem Expr.derives_canonicalEach : ∀ trees : List Expr, Expr.WellFormedEach trees →
    Derives (.moreArguments (Expr.canonicalEach trees))
      ((Expr.tokensEach trees).flatMap (⟨.comma, ","⟩ :: ·)) (Expr.costEach trees)
  | [], _ => .noMoreArguments
  | first :: rest, hformed => by
      have hfirst := (first.derives_canonical hformed.1).loosest
      exact .moreArguments rfl hfirst (Expr.derives_canonicalEach rest hformed.2)

theorem Stmt.derives_canonical : ∀ tree : Stmt, tree.WellFormed →
    Derives (.statement tree.canonical) tree.tokens tree.cost
  | .binding token id none, hformed => hformed.elim
  | .returning token none, hformed => hformed.elim
  | .binding token id (some value), hformed => by
      obtain ⟨rfl, hid, hvalue⟩ := hformed
      rw [Stmt.canonical, hid.eq_mk]
      exact .binding rfl hid.kind_eq rfl (value.derives_canonical hvalue).loosest
  | .returning token (some value), hformed => by
      obtain ⟨rfl, hvalue⟩ := hformed
      exact .returning rfl (value.derives_canonical hvalue).loosest
  | .expression token value, hformed => by
      have hvalue := (value.derives_canonical hformed).loosest
      obtain ⟨later, htokens⟩ := value.exists_tokens_eq_cons
      rw [htokens] at hvalue
      rw [Stmt.canonical, Stmt.tokens, htokens]
      exact .expression hvalue

/-- Statements with semicolons between them. -/
theorem Stmt.derives_canonicalEach : ∀ trees : List Stmt, Stmt.WellFormedEach trees →
    Derives (.statements (Stmt.canonicalEach trees))
      (separated ⟨.semicolon, ";"⟩ (Stmt.tokensEach trees)) (Stmt.costEach trees)
  | [], _ => .noStatements
  | [last], hformed => by
      have hnone : StartsWithout continuations [] := by
        intro token htoken
        contradiction
      have hlast := Derives.unterminated (last.derives_canonical hformed.1) hnone .noStatements
      rwa [List.append_nil] at hlast
  | first :: next :: rest, hformed =>
      .terminated (first.derives_canonical hformed.1) rfl
        (Stmt.derives_canonicalEach (next :: rest) hformed.2)

theorem Block.derives_canonical : ∀ tree : Block, tree.WellFormed →
    Derives (.block tree.canonical) tree.tokens tree.cost
  | ⟨token, statements⟩, hformed => by
      obtain ⟨rfl, hstatements⟩ := hformed
      exact .block rfl (Stmt.derives_canonicalEach statements hstatements) rfl

end

theorem wellFormed_of_identifier {token : Token} (hspelled : token.Spelled)
    (hkind : token.kind = .identifier) : Ident.WellFormed ⟨token, token.lexeme⟩ := by
  obtain ⟨kind, lexeme⟩ := token
  obtain rfl : kind = .identifier := hkind
  exact ⟨rfl, hspelled.1, hspelled.2⟩

theorem MoreParameters.wellFormed {names : List Ident} {tokens : List Token}
    (hnames : MoreParameters names tokens) (hspelled : ∀ token ∈ tokens, token.Spelled) :
    ∀ id ∈ names, id.WellFormed := by
  induction hnames with
  | nil => exact List.forall_mem_nil _
  | cons hcomma hname hmore ih =>
      simp only [List.forall_mem_cons] at hspelled
      obtain ⟨-, hfirst, hrest⟩ := hspelled
      exact List.forall_mem_cons.2 ⟨wellFormed_of_identifier hfirst hname, ih hrest⟩

theorem Parameters.wellFormed {names : List Ident} {tokens : List Token}
    (hnames : Parameters names tokens) (hspelled : ∀ token ∈ tokens, token.Spelled) :
    ∀ id ∈ names, id.WellFormed := by
  cases hnames with
  | nil => exact List.forall_mem_nil _
  | cons hname hmore =>
      obtain ⟨hfirst, hrest⟩ := List.forall_mem_cons.1 hspelled
      exact List.forall_mem_cons.2 ⟨wellFormed_of_identifier hfirst hname, hmore.wellFormed hrest⟩

/-- The trees of a phrase are well formed. -/
def Phrase.WellFormed : Phrase → Prop
  | .expression _ tree => tree.WellFormed
  | .arguments trees | .moreArguments trees => Expr.WellFormedEach trees
  | .block tree => tree.WellFormed
  | .alternative tree => ∀ arm, tree = some arm → arm.WellFormed
  | .statement tree => tree.WellFormed
  | .statements trees => Stmt.WellFormedEach trees

/-- What is derived from tokens that are spelled right is well formed. -/
theorem Derives.wellFormed {phrase : Phrase} {tokens : List Token} {depth : Nat}
    (hphrase : Derives phrase tokens depth) (hspelled : ∀ token ∈ tokens, token.Spelled) :
    phrase.WellFormed := by
  induction hphrase with
  | ident hkind => exact wellFormed_of_identifier (hspelled _ List.mem_cons_self) hkind
  | integer hkind hrun hrange => exact ⟨hkind, hrun, hrange, rfl⟩
  | boolean hkind =>
      have hword := hspelled _ List.mem_cons_self
      rcases hkind with hkind | hkind
      · rw [hword.eq_mk hkind rfl]
        rfl
      · rw [hword.eq_mk hkind rfl]
        rfl
  | grouped hopening htree hclosing ih =>
      simp only [List.forall_mem_cons, List.forall_mem_append] at hspelled
      exact ih hspelled.2.1
  | @conditional keyword opening closing condition consequent other _ _ _ _ _ _ hkind hopening
      hcondition hclosing hconsequent hother ih₁ ih₂ ih₃ =>
      simp only [List.forall_mem_cons, List.forall_mem_append] at hspelled
      obtain ⟨hkeyword, -, hfirst, -, hsecond, hthird⟩ := hspelled
      have hkeyword := hkeyword.eq_mk hkind rfl
      cases other with
      | none => exact ⟨hkeyword, ih₁ hfirst, ih₂ hsecond⟩
      | some arm => exact ⟨hkeyword, ih₁ hfirst, ih₂ hsecond, ih₃ hthird arm rfl⟩
  | function hkind hopening hnames hclosing hbody ih =>
      simp only [List.forall_mem_cons, List.forall_mem_append] at hspelled
      obtain ⟨hkeyword, -, hfirst, -, hsecond⟩ := hspelled
      exact ⟨hkeyword.eq_mk hkind rfl, hnames.wellFormed hfirst, ih hsecond⟩
  | call hcallee hopening harguments hclosing ih₁ ih₂ =>
      simp only [List.forall_mem_cons, List.forall_mem_append] at hspelled
      obtain ⟨hfirst, hmark, hsecond, -⟩ := hspelled
      exact ⟨hmark.eq_mk hopening rfl, ih₁ hfirst, ih₂ hsecond⟩
  | unary hkind hoperand ih =>
      obtain ⟨hoperator, hrest⟩ := List.forall_mem_cons.1 hspelled
      refine ⟨?_, rfl, ih hrest⟩
      rcases hkind with hkind | hkind
      · exact Or.inl (hoperator.eq_mk hkind rfl)
      · exact Or.inr (hoperator.eq_mk hkind rfl)
  | binary hleft hkind hright ih₁ ih₂ =>
      simp only [List.forall_mem_cons, List.forall_mem_append] at hspelled
      obtain ⟨hfirst, hoperator, hsecond⟩ := hspelled
      exact ⟨⟨_, hkind⟩, hoperator.lexeme_eq (Stratum.spelling?_of_mem hkind), rfl, ih₁ hfirst,
        ih₂ hsecond⟩
  | tighter htree ih => exact ih hspelled
  | noArguments => trivial
  | arguments hfirst hmore ih₁ ih₂ =>
      obtain ⟨hfirst, hsecond⟩ := List.forall_mem_append.1 hspelled
      exact ⟨ih₁ hfirst, ih₂ hsecond⟩
  | noMoreArguments => trivial
  | moreArguments hcomma hfirst hmore ih₁ ih₂ =>
      simp only [List.forall_mem_cons, List.forall_mem_append] at hspelled
      exact ⟨ih₁ hspelled.2.1, ih₂ hspelled.2.2⟩
  | block hopening hstatements hclosing ih =>
      simp only [List.forall_mem_cons, List.forall_mem_append] at hspelled
      exact ⟨hspelled.1.eq_mk hopening rfl, ih hspelled.2.1⟩
  | noAlternative =>
      intro arm harm
      contradiction
  | alternative hkind harm ih =>
      intro arm hsome
      obtain rfl := Option.some.inj hsome
      exact ih (List.forall_mem_cons.1 hspelled).2
  | binding hkind hname hsign hvalue ih =>
      simp only [List.forall_mem_cons] at hspelled
      obtain ⟨hkeyword, hident, -, hrest⟩ := hspelled
      exact ⟨hkeyword.eq_mk hkind rfl, wellFormed_of_identifier hident hname, ih hrest⟩
  | returning hkind hvalue ih =>
      obtain ⟨hkeyword, hrest⟩ := List.forall_mem_cons.1 hspelled
      exact ⟨hkeyword.eq_mk hkind rfl, ih hrest⟩
  | expression hvalue ih => exact ih hspelled
  | noStatements => trivial
  | terminated hfirst hkind hsecond ih₁ ih₂ =>
      simp only [List.forall_mem_cons, List.forall_mem_append] at hspelled
      exact ⟨ih₁ hspelled.1, ih₂ hspelled.2.2⟩
  | unterminated hfirst hfree hsecond ih₁ ih₂ =>
      obtain ⟨hfirst, hsecond⟩ := List.forall_mem_append.1 hspelled
      exact ⟨ih₁ hfirst, ih₂ hsecond⟩

mutual

/-- The tokens of expression statements are not part of the text. -/
theorem Expr.render_canonical : ∀ tree : Expr, tree.canonical.render = tree.render
  | .ident _ | .integer _ _ | .boolean _ _ => by
      rw [Expr.canonical]
  | .unary token operator operand => by
      rw [Expr.canonical, Expr.render, Expr.render, operand.render_canonical]
  | .binary token operator left right => by
      rw [Expr.canonical, Expr.render, Expr.render, left.render_canonical, right.render_canonical]
  | .conditional token condition consequent none => by
      rw [Expr.canonical, Expr.render, Expr.render, condition.render_canonical,
        consequent.render_canonical]
  | .conditional token condition consequent (some alternative) => by
      rw [Expr.canonical, Expr.render, Expr.render, condition.render_canonical,
        consequent.render_canonical, alternative.render_canonical]
  | .function token parameters body => by
      rw [Expr.canonical, Expr.render, Expr.render, body.render_canonical]
  | .call token callee arguments => by
      rw [Expr.canonical, Expr.render, Expr.render, callee.render_canonical,
        Expr.renderEach_canonicalEach arguments]

theorem Expr.renderEach_canonicalEach : ∀ trees : List Expr,
    Expr.renderEach (Expr.canonicalEach trees) = Expr.renderEach trees
  | [] => rfl
  | first :: rest => by
      rw [Expr.canonicalEach, Expr.renderEach, Expr.renderEach, first.render_canonical,
        Expr.renderEach_canonicalEach rest]

theorem Stmt.render_canonical : ∀ tree : Stmt, tree.canonical.render = tree.render
  | .binding _ _ none | .returning _ none => by
      rw [Stmt.canonical]
  | .binding token id (some value) => by
      rw [Stmt.canonical, Stmt.render, Stmt.render, value.render_canonical]
  | .returning token (some value) => by
      rw [Stmt.canonical, Stmt.render, Stmt.render, value.render_canonical]
  | .expression token value => by
      rw [Stmt.canonical, Stmt.render, Stmt.render, value.render_canonical]

theorem Stmt.renderEach_canonicalEach : ∀ trees : List Stmt,
    Stmt.renderEach (Stmt.canonicalEach trees) = Stmt.renderEach trees
  | [] => rfl
  | first :: rest => by
      rw [Stmt.canonicalEach, Stmt.renderEach, Stmt.renderEach, first.render_canonical,
        Stmt.renderEach_canonicalEach rest]

theorem Block.render_canonical : ∀ tree : Block, tree.canonical.render = tree.render
  | ⟨token, []⟩ => by
      rw [Block.canonical, Stmt.canonicalEach]
  | ⟨token, first :: rest⟩ => by
      rw [Block.canonical, Stmt.canonicalEach, Block.render, Block.render, first.render_canonical,
        Stmt.renderEach_canonicalEach rest]

end

theorem Program.render_canonical (program : Program) :
    program.canonical.render = program.render := by
  rw [Program.render, Program.render, Program.canonical, ← Stmt.renderEach_eq_map,
    Stmt.renderEach_canonicalEach, Stmt.renderEach_eq_map]

end ExprLang
