/-
The text of a tree as tokens.  A tree is coherent if each field agrees with the token it comes from,
though values may be missing; a well-formed tree is coherent.  The text of each part of a coherent
tree is read as the tokens of that part wherever no letter and no digit is right behind it, so the
text of a program is read as its tokens.
-/
import ExprLang.Proofs.Canonical

namespace ExprLang

mutual

/-- Every field of an expression agrees with its token, and so do those of what is inside it, where
a binding or a return may lack its value. -/
def Expr.Coherent : Expr → Prop
  | .ident id => id.WellFormed
  | .integer token value =>
      token.kind = .integer ∧ isDigitRun token.lexeme.toList = true ∧
        decimalValue token.lexeme.toList ≤ maxInteger ∧
        value = Int64.ofNat (decimalValue token.lexeme.toList)
  | .boolean token value => token = if value then ⟨.kwTrue, "true"⟩ else ⟨.kwFalse, "false"⟩
  | .unary token operator operand =>
      (token = ⟨.minus, "-"⟩ ∨ token = ⟨.bang, "!"⟩) ∧ operator = token.lexeme ∧ operand.Coherent
  | .binary token operator left right =>
      (∃ stratum : Stratum, token.kind ∈ stratum.operators) ∧ token.lexeme = token.kind.name ∧
        operator = token.lexeme ∧ left.Coherent ∧ right.Coherent
  | .conditional token condition consequent none =>
      token = ⟨.kwIf, "if"⟩ ∧ condition.Coherent ∧ consequent.Coherent
  | .conditional token condition consequent (some alternative) =>
      token = ⟨.kwIf, "if"⟩ ∧ condition.Coherent ∧ consequent.Coherent ∧ alternative.Coherent
  | .function token parameters body =>
      token = ⟨.kwFn, "fn"⟩ ∧ (∀ id ∈ parameters, id.WellFormed) ∧ body.Coherent
  | .call token callee arguments =>
      token = ⟨.openParen, "("⟩ ∧ callee.Coherent ∧ Expr.CoherentEach arguments

def Expr.CoherentEach : List Expr → Prop
  | [] => True
  | first :: rest => first.Coherent ∧ Expr.CoherentEach rest

/-- A binding and a return need not have a value; the token of an expression statement may be
any. -/
def Stmt.Coherent : Stmt → Prop
  | .binding token id none => token = ⟨.kwLet, "let"⟩ ∧ id.WellFormed
  | .binding token id (some value) => token = ⟨.kwLet, "let"⟩ ∧ id.WellFormed ∧ value.Coherent
  | .returning token none => token = ⟨.kwReturn, "return"⟩
  | .returning token (some value) => token = ⟨.kwReturn, "return"⟩ ∧ value.Coherent
  | .expression _ value => value.Coherent

def Stmt.CoherentEach : List Stmt → Prop
  | [] => True
  | first :: rest => first.Coherent ∧ Stmt.CoherentEach rest

def Block.Coherent : Block → Prop
  | ⟨token, statements⟩ => token = ⟨.openCurly, "\x7b"⟩ ∧ Stmt.CoherentEach statements

end

def Program.Coherent (program : Program) : Prop :=
  Stmt.CoherentEach program.statements

theorem Expr.coherentEach_iff {trees : List Expr} :
    Expr.CoherentEach trees ↔ ∀ tree ∈ trees, tree.Coherent := by
  induction trees with
  | nil => simp [Expr.CoherentEach]
  | cons first rest ih => simp [Expr.CoherentEach, ih]

theorem Stmt.coherentEach_iff {trees : List Stmt} :
    Stmt.CoherentEach trees ↔ ∀ tree ∈ trees, tree.Coherent := by
  induction trees with
  | nil => simp [Stmt.CoherentEach]
  | cons first rest ih => simp [Stmt.CoherentEach, ih]

mutual

theorem Expr.WellFormed.coherent : ∀ {tree : Expr}, tree.WellFormed → tree.Coherent
  | .ident _, hformed | .integer _ _, hformed | .boolean _ _, hformed => hformed
  | .unary _ _ _, ⟨htoken, hoperator, hoperand⟩ => ⟨htoken, hoperator, hoperand.coherent⟩
  | .binary _ _ _ _, ⟨hkind, hlexeme, hoperator, hleft, hright⟩ =>
      ⟨hkind, hlexeme, hoperator, hleft.coherent, hright.coherent⟩
  | .conditional _ _ _ none, ⟨htoken, hcondition, hconsequent⟩ =>
      ⟨htoken, hcondition.coherent, hconsequent.coherent⟩
  | .conditional _ _ _ (some _), ⟨htoken, hcondition, hconsequent, halternative⟩ =>
      ⟨htoken, hcondition.coherent, hconsequent.coherent, halternative.coherent⟩
  | .function _ _ _, ⟨htoken, hparameters, hbody⟩ => ⟨htoken, hparameters, hbody.coherent⟩
  | .call _ _ arguments, ⟨htoken, hcallee, harguments⟩ =>
      ⟨htoken, hcallee.coherent, Expr.coherentEach_of_wellFormed arguments harguments⟩

theorem Expr.coherentEach_of_wellFormed : ∀ trees : List Expr, Expr.WellFormedEach trees →
    Expr.CoherentEach trees
  | [], _ => trivial
  | _ :: rest, hformed => ⟨hformed.1.coherent, Expr.coherentEach_of_wellFormed rest hformed.2⟩

theorem Stmt.WellFormed.coherent : ∀ {tree : Stmt}, tree.WellFormed → tree.Coherent
  | .binding _ _ none, hformed | .returning _ none, hformed => hformed.elim
  | .binding _ _ (some _), ⟨htoken, hid, hvalue⟩ => ⟨htoken, hid, hvalue.coherent⟩
  | .returning _ (some _), ⟨htoken, hvalue⟩ => ⟨htoken, hvalue.coherent⟩
  | .expression _ _, hformed => Expr.WellFormed.coherent hformed

theorem Stmt.coherentEach_of_wellFormed : ∀ trees : List Stmt, Stmt.WellFormedEach trees →
    Stmt.CoherentEach trees
  | [], _ => trivial
  | _ :: rest, hformed => ⟨hformed.1.coherent, Stmt.coherentEach_of_wellFormed rest hformed.2⟩

theorem Block.WellFormed.coherent : ∀ {tree : Block}, tree.WellFormed → tree.Coherent
  | ⟨_, statements⟩, ⟨htoken, hstatements⟩ =>
      ⟨htoken, Stmt.coherentEach_of_wellFormed statements hstatements⟩

end

theorem Program.WellFormed.coherent {program : Program} (hformed : program.WellFormed) :
    program.Coherent :=
  Stmt.coherentEach_of_wellFormed program.statements hformed

/-- Nothing comes first that could make a word or a number in front of it longer. -/
def Detached (text : List Char) : Prop :=
  ∀ c ∈ text.head?, isWordChar c = false

/-- A text is read as these tokens, whatever detached text is behind it. -/
def LexesTo (text : String) (tokens : List Token) : Prop :=
  ∀ rest, Detached rest → scanAll (text.toList ++ rest) = tokens ++ scanAll rest

theorem detached_nil : Detached [] := by
  intro c hc
  contradiction

theorem detached_cons {c : Char} (hc : isWordChar c = false) (rest : List Char) :
    Detached (c :: rest) := by
  intro first hfirst
  rwa [← Option.some.inj hfirst]

/-- What begins with a piece of punctuation is detached. -/
theorem detached_append (piece : String)
    (hpiece : piece.toList.head?.map isWordChar = some false) (rest : List Char) :
    Detached (piece.toList ++ rest) := by
  intro c hc
  cases htext : piece.toList with
  | nil =>
      rw [htext] at hpiece
      contradiction
  | cons first later =>
      rw [htext] at hpiece hc
      rw [← Option.some.inj hc]
      exact Option.some.inj hpiece

theorem isWordChar_of_mark? {c : Char} {kind : TokenKind} (hmark : mark? c = some kind) :
    isWordChar c = false := by
  unfold mark? at hmark
  split at hmark <;> first | rfl | contradiction

/-- A token that is no equals sign and no exclamation mark is joined by letters and digits at
most. -/
theorem Token.joins_eq_false {token : Token} {c : Char} (hc : isWordChar c = false)
    (hassign : token.kind ≠ .assign) (hbang : token.kind ≠ .bang) : token.joins c = false := by
  have hdigit : c.isDigit = false := by
    simp only [isWordChar, Char.isAlphanum, Bool.or_eq_false_iff] at hc
    exact hc.1.2
  obtain ⟨kind, lexeme⟩ := token
  cases kind <;> first | exact hc | exact hdigit | rfl | contradiction

theorem LexesTo.of_spelled (token : Token) (hspelled : token.Spelled)
    (hassign : token.kind ≠ .assign) (hbang : token.kind ≠ .bang) :
    LexesTo token.lexeme [token] := by
  intro rest hrest
  exact scanAll_lexeme_append hspelled fun c hc => Token.joins_eq_false (hrest c hc) hassign hbang

theorem LexesTo.of_operator {token : Token} {stratum : Stratum}
    (hkind : token.kind ∈ stratum.operators) (hlexeme : token.lexeme = token.kind.name) :
    LexesTo token.lexeme [token] := by
  have hspelled : token.kind.spelling? = some token.lexeme := by
    rw [hlexeme]
    exact Stratum.spelling?_of_mem hkind
  refine LexesTo.of_spelled token (Token.spelled_of_spelling? hspelled) ?_ ?_
  · intro hassign
    rw [hassign] at hkind
    cases stratum <;> contradiction
  · intro hbang
    rw [hbang] at hkind
    cases stratum <;> contradiction

section Pieces

variable (rest : List Char)

theorem scanAll_space : scanAll (" ".toList ++ rest) = scanAll rest :=
  scanAll_of_blank rfl rest

theorem scanAll_openParen : scanAll ("(".toList ++ rest) = ⟨.openParen, "("⟩ :: scanAll rest :=
  scanAll_mark_cons rfl rest

theorem scanAll_closeParen : scanAll (")".toList ++ rest) = ⟨.closeParen, ")"⟩ :: scanAll rest :=
  scanAll_mark_cons rfl rest

theorem scanAll_closeParen_space :
    scanAll (") ".toList ++ rest) = ⟨.closeParen, ")"⟩ :: scanAll rest :=
  (scanAll_mark_cons rfl _).trans (congrArg _ (scanAll_of_blank rfl rest))

theorem scanAll_if :
    scanAll ("if (".toList ++ rest) = ⟨.kwIf, "if"⟩ :: ⟨.openParen, "("⟩ :: scanAll rest := by
  refine (scanAll_of_not_blank rfl _).trans (congrArg _ ?_)
  exact (scanAll_of_blank rfl _).trans (scanAll_mark_cons rfl rest)

theorem scanAll_else : scanAll (" else ".toList ++ rest) = ⟨.kwElse, "else"⟩ :: scanAll rest := by
  refine (scanAll_of_blank rfl _).trans ?_
  exact (scanAll_of_not_blank rfl _).trans (congrArg _ (scanAll_of_blank rfl rest))

theorem scanAll_equals : scanAll (" = ".toList ++ rest) = ⟨.assign, "="⟩ :: scanAll rest := by
  refine (scanAll_of_blank rfl _).trans ?_
  exact (scanAll_of_not_blank rfl _).trans (congrArg _ (scanAll_of_blank rfl rest))

theorem scanAll_openCurly :
    scanAll ("\x7b ".toList ++ rest) = ⟨.openCurly, "\x7b"⟩ :: scanAll rest :=
  (scanAll_mark_cons rfl _).trans (congrArg _ (scanAll_of_blank rfl rest))

theorem scanAll_closeCurly :
    scanAll (" \x7d".toList ++ rest) = ⟨.closeCurly, "\x7d"⟩ :: scanAll rest :=
  (scanAll_of_blank rfl _).trans (scanAll_mark_cons rfl rest)

end Pieces

/-- Texts with a mark and a space between neighbours. -/
theorem LexesTo.joined {ι : Type} {c : Char} {kind : TokenKind} (hmark : mark? c = some kind)
    {items : List ι} {text : ι → String} {tokens : ι → List Token}
    (hitems : ∀ item ∈ items, LexesTo (text item) (tokens item)) :
    LexesTo (joined (String.ofList [c, ' ']) (items.map text))
      (separated ⟨kind, String.ofList [c]⟩ (items.map tokens)) := by
  induction items with
  | nil =>
      intro rest _
      rfl
  | cons first later ih =>
      obtain ⟨hfirst, hlater⟩ := List.forall_mem_cons.1 hitems
      cases later with
      | nil => exact hfirst
      | cons next later =>
          intro rest hrest
          have hmore := ih hlater rest hrest
          simp only [List.map_cons, ExprLang.joined, separated, String.toList_append,
            String.toList_ofList, List.append_assoc, List.cons_append, List.nil_append] at hmore ⊢
          rw [hfirst _ (detached_cons (isWordChar_of_mark? hmark) _), scanAll_mark_cons hmark,
            scanAll_of_blank rfl, hmore]

theorem Ident.WellFormed.lexesTo {id : Ident} (hformed : id.WellFormed) :
    LexesTo id.name [id.token] := by
  have hkind := hformed.kind_eq
  obtain ⟨htoken, hword, hfree⟩ := hformed
  have hspelled : id.token.Spelled := by
    rw [htoken]
    exact ⟨hword, hfree⟩
  have hname : id.name = id.token.lexeme := by
    rw [htoken]
  rw [hname]
  exact LexesTo.of_spelled id.token hspelled (by rw [hkind]; decide) (by rw [hkind]; decide)

theorem lexesTo_parameters {parameters : List Ident}
    (hformed : ∀ id ∈ parameters, id.WellFormed) :
    LexesTo (joined ", " (parameters.map Ident.name)) (parameterTokens parameters) :=
  LexesTo.joined (c := ',') rfl fun id hid => (hformed id hid).lexesTo

theorem Expr.tokensEach_eq_map (trees : List Expr) :
    Expr.tokensEach trees = trees.map Expr.tokens := by
  induction trees with
  | nil => rfl
  | cons first rest ih => rw [Expr.tokensEach, ih, List.map_cons]

theorem Stmt.tokensEach_eq_map (trees : List Stmt) :
    Stmt.tokensEach trees = trees.map Stmt.tokens := by
  induction trees with
  | nil => rfl
  | cons first rest ih => rw [Stmt.tokensEach, ih, List.map_cons]

/-- The text of an expression does not start with an equals sign. -/
theorem Expr.exists_render_eq_cons : ∀ tree : Expr, tree.Coherent →
    ∃ c later, tree.render.toList = c :: later ∧ c ≠ '='
  | .ident id, ⟨_, hword, _⟩ => by
      rw [Expr.render]
      cases hname : id.name.toList with
      | nil =>
          rw [hname] at hword
          contradiction
      | cons c later =>
          refine ⟨c, later, rfl, ?_⟩
          rintro rfl
          rw [hname] at hword
          contradiction
  | .integer token value, ⟨_, hrun, _⟩ => by
      rw [Expr.render]
      cases hdigits : token.lexeme.toList with
      | nil =>
          rw [hdigits] at hrun
          contradiction
      | cons c later =>
          refine ⟨c, later, rfl, ?_⟩
          rintro rfl
          rw [hdigits] at hrun
          contradiction
  | .boolean _ value, _ => by
      rw [Expr.render]
      cases value with
      | true => exact ⟨'t', ['r', 'u', 'e'], rfl, by decide⟩
      | false => exact ⟨'f', ['a', 'l', 's', 'e'], rfl, by decide⟩
  | .unary _ _ _, _ | .binary _ _ _ _, _ => by
      simp only [Expr.render, String.toList_append, List.append_assoc]
      exact ⟨'(', _, rfl, by decide⟩
  | .conditional _ _ _ none, _ | .conditional _ _ _ (some _), _ => by
      simp only [Expr.render, String.toList_append, List.append_assoc]
      exact ⟨'i', _, rfl, by decide⟩
  | .function _ _ _, _ => by
      simp only [Expr.render, String.toList_append, List.append_assoc]
      exact ⟨'f', _, rfl, by decide⟩
  | .call _ callee _, ⟨_, hcallee, _⟩ => by
      obtain ⟨c, later, htext, hc⟩ := callee.exists_render_eq_cons hcallee
      simp only [Expr.render, String.toList_append, htext]
      exact ⟨c, _, rfl, hc⟩

mutual

theorem Expr.lexesTo_render : ∀ tree : Expr, tree.Coherent → LexesTo tree.render tree.tokens
  | .ident id, hcoherent => Ident.WellFormed.lexesTo hcoherent
  | .integer token value, ⟨hkind, hrun, _⟩ => by
      have hspelled : token.Spelled := by
        rw [Token.Spelled, hkind]
        exact hrun
      exact LexesTo.of_spelled token hspelled (by rw [hkind]; decide) (by rw [hkind]; decide)
  | .boolean token true, hcoherent => by
      rw [Expr.Coherent] at hcoherent
      rw [hcoherent]
      exact LexesTo.of_spelled ⟨.kwTrue, "true"⟩ rfl (by decide) (by decide)
  | .boolean token false, hcoherent => by
      rw [Expr.Coherent] at hcoherent
      rw [hcoherent]
      exact LexesTo.of_spelled ⟨.kwFalse, "false"⟩ rfl (by decide) (by decide)
  | .unary token operator operand, hcoherent => by
      obtain ⟨htoken, rfl, hcoherent⟩ := hcoherent
      have hoperand := operand.lexesTo_render hcoherent
      obtain ⟨c, later, htext, hc⟩ := operand.exists_render_eq_cons hcoherent
      have hspelled : token.Spelled := by
        rcases htoken with rfl | rfl
        · rfl
        · rfl
      have hfree : token.joins c = false := by
        rcases htoken with rfl | rfl
        · rfl
        · exact decide_eq_false hc
      intro rest hrest
      simp only [Expr.render, Expr.tokens, String.toList_append, List.append_assoc]
      -- An exclamation mark would be joined by an equals sign, but no operand starts with one.
      have hjoins : ∀ d ∈ (operand.render.toList ++ (")".toList ++ rest)).head?,
          token.joins d = false := by
        intro d hd
        rw [htext] at hd
        rwa [← Option.some.inj hd]
      rw [scanAll_openParen, scanAll_lexeme_append hspelled hjoins,
        hoperand _ (detached_append ")" rfl _), scanAll_closeParen]
      simp
  | .binary token operator left right, hcoherent => by
      obtain ⟨⟨stratum, hkind⟩, hlexeme, rfl, hleft, hright⟩ := hcoherent
      have hleft := left.lexesTo_render hleft
      have hright := right.lexesTo_render hright
      have hoperator := LexesTo.of_operator hkind hlexeme
      intro rest hrest
      simp only [Expr.render, Expr.tokens, String.toList_append, List.append_assoc]
      rw [scanAll_openParen, hleft _ (detached_append " " rfl _), scanAll_space,
        hoperator _ (detached_append " " rfl _), scanAll_space,
        hright _ (detached_append ")" rfl _), scanAll_closeParen]
      simp
  | .conditional token condition consequent none, hcoherent => by
      obtain ⟨rfl, hcondition, hconsequent⟩ := hcoherent
      have hcondition := condition.lexesTo_render hcondition
      have hconsequent := consequent.lexesTo_render hconsequent
      intro rest hrest
      simp only [Expr.render, Expr.tokens, String.toList_append, List.append_assoc]
      rw [scanAll_if, hcondition _ (detached_append ") " rfl _), scanAll_closeParen_space,
        hconsequent _ hrest]
      simp
  | .conditional token condition consequent (some alternative), hcoherent => by
      obtain ⟨rfl, hcondition, hconsequent, halternative⟩ := hcoherent
      have hcondition := condition.lexesTo_render hcondition
      have hconsequent := consequent.lexesTo_render hconsequent
      have halternative := alternative.lexesTo_render halternative
      intro rest hrest
      simp only [Expr.render, Expr.tokens, String.toList_append, List.append_assoc]
      rw [scanAll_if, hcondition _ (detached_append ") " rfl _), scanAll_closeParen_space,
        hconsequent _ (detached_append " else " rfl _), scanAll_else, halternative _ hrest]
      simp
  | .function token parameters body, hcoherent => by
      obtain ⟨rfl, hparameters, hbody⟩ := hcoherent
      have hparameters := lexesTo_parameters hparameters
      have hbody := body.lexesTo_render hbody
      have hkeyword : LexesTo "fn" [⟨.kwFn, "fn"⟩] :=
        LexesTo.of_spelled ⟨.kwFn, "fn"⟩ rfl (by decide) (by decide)
      intro rest hrest
      simp only [Expr.render, Expr.tokens, renderParameters, String.toList_append,
        List.append_assoc]
      rw [hkeyword _ (detached_append "(" rfl _), scanAll_openParen,
        hparameters _ (detached_append ")" rfl _), scanAll_closeParen, scanAll_space, hbody _ hrest]
      simp
  | .call token callee arguments, hcoherent => by
      obtain ⟨rfl, hcallee, harguments⟩ := hcoherent
      have hcallee := callee.lexesTo_render hcallee
      have harguments := LexesTo.joined (c := ',') rfl
        (Expr.lexesTo_render_of_mem arguments harguments)
      intro rest hrest
      simp only [Expr.render, Expr.tokens, String.toList_append, List.append_assoc]
      rw [hcallee _ (detached_append "(" rfl _), scanAll_openParen, Expr.renderEach_eq_map,
        Expr.tokensEach_eq_map, harguments _ (detached_append ")" rfl _), scanAll_closeParen]
      simp

theorem Expr.lexesTo_render_of_mem : ∀ trees : List Expr, Expr.CoherentEach trees →
    ∀ tree ∈ trees, LexesTo tree.render tree.tokens
  | [], _ => List.forall_mem_nil _
  | first :: rest, hcoherent =>
      List.forall_mem_cons.2
        ⟨first.lexesTo_render hcoherent.1, Expr.lexesTo_render_of_mem rest hcoherent.2⟩

theorem Stmt.lexesTo_render : ∀ tree : Stmt, tree.Coherent → LexesTo tree.render tree.tokens
  | .binding token id none, hcoherent => by
      obtain ⟨rfl, hid⟩ := hcoherent
      have hkeyword : LexesTo "let" [⟨.kwLet, "let"⟩] :=
        LexesTo.of_spelled ⟨.kwLet, "let"⟩ rfl (by decide) (by decide)
      intro rest hrest
      simp only [Stmt.render, Stmt.tokens, String.toList_append, List.append_assoc]
      rw [hkeyword _ (detached_append " " rfl _), scanAll_space,
        hid.lexesTo _ (detached_append " = " rfl _), scanAll_equals]
      simp
  | .returning token none, hcoherent => by
      obtain rfl := hcoherent
      exact LexesTo.of_spelled ⟨.kwReturn, "return"⟩ rfl (by decide) (by decide)
  | .binding token id (some value), hcoherent => by
      obtain ⟨rfl, hid, hvalue⟩ := hcoherent
      have hvalue := value.lexesTo_render hvalue
      have hkeyword : LexesTo "let" [⟨.kwLet, "let"⟩] :=
        LexesTo.of_spelled ⟨.kwLet, "let"⟩ rfl (by decide) (by decide)
      intro rest hrest
      simp only [Stmt.render, Stmt.tokens, String.toList_append, List.append_assoc]
      rw [hkeyword _ (detached_append " " rfl _), scanAll_space,
        hid.lexesTo _ (detached_append " = " rfl _), scanAll_equals, hvalue _ hrest]
      simp
  | .returning token (some value), hcoherent => by
      obtain ⟨rfl, hvalue⟩ := hcoherent
      have hvalue := value.lexesTo_render hvalue
      have hkeyword : LexesTo "return" [⟨.kwReturn, "return"⟩] :=
        LexesTo.of_spelled ⟨.kwReturn, "return"⟩ rfl (by decide) (by decide)
      intro rest hrest
      simp only [Stmt.render, Stmt.tokens, String.toList_append, List.append_assoc]
      rw [hkeyword _ (detached_append " " rfl _), scanAll_space, hvalue _ hrest]
      simp
  | .expression token value, hcoherent => value.lexesTo_render hcoherent

theorem Stmt.lexesTo_render_of_mem : ∀ trees : List Stmt, Stmt.CoherentEach trees →
    ∀ tree ∈ trees, LexesTo tree.render tree.tokens
  | [], _ => List.forall_mem_nil _
  | first :: rest, hcoherent =>
      List.forall_mem_cons.2
        ⟨first.lexesTo_render hcoherent.1, Stmt.lexesTo_render_of_mem rest hcoherent.2⟩

theorem Block.lexesTo_render : ∀ tree : Block, tree.Coherent → LexesTo tree.render tree.tokens
  | ⟨token, []⟩, hcoherent => by
      obtain ⟨rfl, -⟩ := hcoherent
      intro rest hrest
      exact (scanAll_mark_cons rfl _).trans (congrArg _ (scanAll_mark_cons rfl rest))
  | ⟨token, first :: later⟩, hcoherent => by
      obtain ⟨rfl, hstatements⟩ := hcoherent
      have hstatements := LexesTo.joined (c := ';') rfl
        (Stmt.lexesTo_render_of_mem (first :: later) hstatements)
      intro rest hrest
      rw [Block.render_of_ne_nil _ (List.cons_ne_nil first later)]
      simp only [Block.tokens, String.toList_append, List.append_assoc]
      rw [scanAll_openCurly, Stmt.tokensEach_eq_map, hstatements _ (detached_append " \x7d" rfl _),
        scanAll_closeCurly]
      simp

end

/-- The text of a coherent program is read as its tokens. -/
theorem Program.scanAll_render {program : Program} (hcoherent : program.Coherent) :
    scanAll program.render.toList = program.tokens := by
  have htext := LexesTo.joined (c := ';') rfl
    (Stmt.lexesTo_render_of_mem program.statements hcoherent) [] detached_nil
  rw [List.append_nil, scanAll_nil, List.append_nil, ← Stmt.tokensEach_eq_map] at htext
  exact htext

end ExprLang
