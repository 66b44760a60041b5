/-
Reading chains of operands with binary operators between them, under any assignment of powers: the
parser gives the tree of the chain.  It folds operators from the left and reads each right operand
at the power of its own operator, so what is proved by induction is about a left operand that has
been folded already.  A right operand is read at a greater power than what it lies in, which bounds
how deep the nesting goes however long the chain is.
-/
import ExprLang.Proofs.ChainTree
import ExprLang.Proofs.Cursor
import ExprLang.Proofs.Precedence
import ExprLang.Tree.Equality

namespace ExprLang

namespace Grammar

/-- A name, a truth value or a number that can be held, which the grammar reads by the rule that the
language has for it. -/
structure ReadsLeaf (grammar : Grammar) (token : Token) : Prop where
  kind : token.kind ∈ [.identifier, .integer, .kwTrue, .kwFalse]
  rule : grammar.startRule token.kind = standard.startRule token.kind
  value : token.kind = .integer →
    isDigitRun token.lexeme.toList = true ∧ decimalValue token.lexeme.toList ≤ maxInteger

/-- An operator that the grammar has as a binary one of any power but the lowest, be it of any kind
but the semicolon, and a leaf behind it. -/
structure ReadsLink (grammar : Grammar) (link : Link) : Prop where
  operator : ∃ power, grammar.operator link.operator.kind = some (power, .binary) ∧ .lowest < power
  ne_semicolon : link.operator.kind ≠ .semicolon
  operand : grammar.ReadsLeaf link.operand

/-- With these tokens ahead an expression goes on at no power: the first of them is a semicolon or
binds as weakly as what is no operator. -/
def Ends (grammar : Grammar) (tokens : List Token) : Prop :=
  (tokens.headD .endOfInput).kind = .semicolon ∨
    grammar.power (tokens.headD .endOfInput).kind = .lowest

variable {grammar : Grammar} {link : Link}

theorem ReadsLink.operator_eq (hlink : grammar.ReadsLink link) :
    grammar.operator link.operator.kind = some (link.strength grammar.power, .binary) := by
  obtain ⟨power, hoperator, -⟩ := hlink.operator
  rw [Link.strength, Grammar.power, hoperator]

theorem ReadsLink.lowest_lt (hlink : grammar.ReadsLink link) :
    .lowest < link.strength grammar.power := by
  obtain ⟨power, hoperator, hpower⟩ := hlink.operator
  rwa [Link.strength, Grammar.power, hoperator]

theorem ReadsLeaf.ne_eof {token : Token} (hleaf : grammar.ReadsLeaf token) :
    token.kind ≠ .eof := by
  intro heof
  have hkind := hleaf.kind
  simp [heof] at hkind

end Grammar

/-- Every operand of a chain is a token of its own, and so is the last one. -/
theorem lastOperand_ne_eof {grammar : Grammar} {first : Token} {links : List Link}
    (hfirst : grammar.ReadsLeaf first) (hlinks : ∀ link ∈ links, grammar.ReadsLink link) :
    (lastOperand first links).kind ≠ .eof := by
  induction links generalizing first with
  | nil => exact hfirst.ne_eof
  | cons link rest ih =>
      exact ih (hlinks link List.mem_cons_self).operand fun other hother =>
        hlinks other (List.mem_cons_of_mem link hother)

/-- No power is further from the lowest than six. -/
theorem Power.rank_le_six (p : Power) : p.rank ≤ 6 := by
  cases p <;> decide

section Reading

open ParseM

variable {σ : Type} [TokenSupply σ] {grammar : Grammar} {behind : List Token}

omit [TokenSupply σ] in
/-- A leaf is read without a move. -/
theorem Rule.start_of_leaf [TokenSupply σ] (inner : Power → ParseM σ Expr) {state : Parser σ}
    (hleaf : state.grammar.ReadsLeaf state.current) :
    Rule.start inner state = (some state.current.leaf, state) := by
  obtain ⟨hkind, hrule, hvalue⟩ := hleaf
  rw [Rule.start, bind_apply, inspect_apply]
  dsimp only
  rw [bind_apply, inspect_apply]
  dsimp only
  rw [hrule, Token.leaf]
  simp only [List.mem_cons, List.not_mem_nil, or_false] at hkind
  rcases hkind with hkind | hkind | hkind | hkind
  · rw [hkind]
    rfl
  · obtain ⟨hrun, hle⟩ := hvalue hkind
    rw [hkind]
    show Rule.integer state = _
    rw [Rule.integer, bind_apply, inspect_apply]
    dsimp only
    rw [readInteger?_of_isDigitRun hrun, if_pos hle]
    rfl
  · rw [hkind]
    show Rule.boolean state = _
    rw [Rule.boolean, bind_apply, inspect_apply]
    dsimp only
    rw [hkind]
    rfl
  · rw [hkind]
    show Rule.boolean state = _
    rw [Rule.boolean, bind_apply, inspect_apply]
    dsimp only
    rw [hkind]
    rfl

/-- Between two parsers nothing was recorded and at most so many expressions were opened inside one
another; the later one has come to a known token, with known tokens ahead. -/
structure Parser.ReadsTo (earlier later : Parser σ) (levels : Nat) (last : Token)
    (left : List Token) : Prop where
  errors : later.errors = earlier.errors
  peak : later.peak ≤ max earlier.peak (earlier.depth + levels)
  current : later.current = last
  awaits : later.Awaits left

/-- From behind a left operand that has been folded already, the links that bind more tightly than a
power are folded onto it, and the others are left. -/
def Folds (σ : Type) [TokenSupply σ] (grammar : Grammar) (behind : List Token)
    (links : List Link) : Prop :=
  ∀ (power : Power) (left : Expr) (state : Parser σ), state.grammar = grammar →
    state.depth + (6 - power.rank) ≤ state.limit → state.current.kind ≠ .eof →
    state.Awaits (linkTokens links ++ behind) →
    ∃ final, Rule.absorb expression power left state =
        (some (chainTree grammar.power left
          (links.takeWhile (Link.exceeds grammar.power power))), final) ∧
      state.ReadsTo final (6 - power.rank)
        (lastOperand state.current
          (links.takeWhile (Link.exceeds grammar.power power)))
        (linkTokens (links.dropWhile (Link.exceeds grammar.power power)) ++ behind)

/-- An expression that starts with a leaf takes the links that bind more tightly than its power. -/
theorem Folds.expression_eq {links : List Link} (hfolds : Folds σ grammar behind links)
    {power : Power} {first : Token} {state : Parser σ} (hgrammar : state.grammar = grammar)
    (hfirst : grammar.ReadsLeaf first) (hroom : state.depth + (7 - power.rank) ≤ state.limit)
    (hfaces : state.Faces (first :: (linkTokens links ++ behind))) :
    ∃ final, expression power state =
        (some (chainTree grammar.power first.leaf
          (links.takeWhile (Link.exceeds grammar.power power))), final) ∧
      state.ReadsTo final (7 - power.rank)
        (lastOperand first (links.takeWhile (Link.exceeds grammar.power power)))
        (linkTokens (links.dropWhile (Link.exceeds grammar.power power)) ++
          behind) := by
  have hrank := power.rank_le_six
  have hopen : state.depth < state.limit := by omega
  have hcurrent := hfaces.current_cons
  have hstart : Rule.start expression state.opened = (some first.leaf, state.opened) := by
    rw [← hcurrent, ← hgrammar] at hfirst
    rw [← hcurrent]
    exact Rule.start_of_leaf expression hfirst
  have hwithin : state.depth + 1 + (6 - power.rank) ≤ state.limit := by omega
  have hproper : state.opened.current.kind ≠ .eof := by
    show state.current.kind ≠ .eof
    rw [hcurrent]
    exact hfirst.ne_eof
  have hawaits : state.opened.Awaits (linkTokens links ++ behind) :=
    ⟨hfaces.awaits_cons.peek, hfaces.awaits_cons.supply⟩
  obtain ⟨inside, habsorb, hread⟩ :=
    hfolds power first.leaf state.opened hgrammar hwithin hproper hawaits
  refine ⟨inside.leave, ?_, ?_⟩
  · rw [expression_eq_nested, nested_eq_opened _ hopen, opened_apply, Rule.body,
      bind_of_some hstart, habsorb]
  · have hpeak := hread.peak
    have hlast := hread.current
    constructor
    · exact hread.errors
    · show inside.peak ≤ _
      simp only [Parser.opened] at hpeak
      omega
    · show inside.current = _
      rw [hlast]
      show lastOperand state.current _ = _
      rw [hcurrent]
    · exact ⟨hread.awaits.peek, hread.awaits.supply⟩

/-- Absorbing operators stops where an expression goes on no further. -/
theorem absorb_of_not_continues {inner : Power → ParseM σ Expr} {power : Power} {left : Expr}
    {state : Parser σ} (hstop : Rule.continues power state = false) :
    Rule.absorb inner power left state = (some left, state) :=
  improveWhile_of_not hstop

/-- A binary operator in the lookahead is folded with its right operand, and absorbing goes on
behind it. -/
theorem absorb_of_binary {power strength : Power} {left right : Expr} {state after : Parser σ}
    (hmore : Rule.continues power state = true)
    (hoperator : state.grammar.operator state.peek.kind = some (strength, .binary))
    (hcurrent : state.current.kind ≠ .eof)
    (hright : expression strength state.advance.advance = (some right, after)) :
    Rule.absorb expression power left state =
      Rule.absorb expression power (.binary state.peek state.peek.lexeme left right) after := by
  have hpower : state.advance.currentPower = strength := by
    show state.grammar.power state.peek.kind = strength
    rw [Grammar.power, hoperator]
  have hstep : Rule.extend expression left state =
      (some (.binary state.peek state.peek.lexeme left right), after) := by
    rw [Rule.extend_of_rule hoperator]
    show Rule.binary expression left state.advance = _
    rw [Rule.binary, bind_apply, inspect_apply]
    dsimp only
    rw [bind_apply, inspect_apply]
    dsimp only
    rw [hpower]
    show (expression strength >>= _) state.advance.advance = _
    rw [bind_of_some hright]
    rfl
  have hlater := Keeps.after Parser.Precedes (expression (σ := σ) strength) state.advance.advance
  rw [hright] at hlater
  have hless : after.ahead < state.ahead :=
    Nat.lt_of_le_of_lt (Nat.le_trans hlater.ahead (Parser.ahead_advance_le state.advance))
      (Parser.ahead_advance_lt hcurrent)
  exact improveWhile_of_lt hmore hstep hless

/-- Without links nothing is folded, since an expression goes on no further. -/
theorem Folds.nil (hends : grammar.Ends behind) : Folds σ grammar behind [] := by
  intro power left state hgrammar _ _ hawaits
  have hpeek : state.peek = behind.headD .endOfInput := hawaits.peek
  have hstop : Rule.continues power state = false := by
    rw [← Bool.not_eq_true, Rule.continues_iff_lt, hgrammar, hpeek]
    rintro ⟨hsemicolon, hless⟩
    rcases hends with hend | hend
    · exact hsemicolon hend
    · rw [hend] at hless
      exact Nat.not_lt_zero _ hless
  refine ⟨state, ?_, rfl, Nat.le_max_left _ _, rfl, hawaits⟩
  rw [absorb_of_not_continues hstop, List.takeWhile_nil, chainTree_nil]

/-- A link that binds tightly enough takes the tighter links behind it into its right operand, and
what is left is folded onto the two together. -/
theorem Folds.cons {link : Link} {rest : List Link} {strong : Power}
    (hlink : grammar.ReadsLink link) (hstrong : link.strength grammar.power = strong)
    (hrest : ∀ other ∈ rest, grammar.ReadsLink other) (hfolds : Folds σ grammar behind rest)
    (houter : Folds σ grammar behind (rest.dropWhile (Link.exceeds grammar.power strong))) :
    Folds σ grammar behind (link :: rest) := by
  intro power left state hgrammar hroom hcurrent hawaits
  have hpeek : state.peek = link.operator := hawaits.peek
  have hoperator : state.grammar.operator state.peek.kind = some (strong, .binary) := by
    rw [hgrammar, hpeek, hlink.operator_eq, hstrong]
  have hmore : Rule.continues power state = true ↔ power < strong := by
    rw [Rule.continues_iff_lt, hgrammar, hpeek, ← hstrong]
    exact and_iff_right hlink.ne_semicolon
  have hexceeds : link.exceeds grammar.power power = true ↔ power < strong := by
    rw [Link.exceeds_iff, hstrong]
  by_cases habove : power < strong
  · -- The right operand is read one level deeper, at the power of its operator.
    have hrank : power.rank < strong.rank := habove
    have hdeeper :
        state.advance.advance.depth + (7 - strong.rank) ≤ state.advance.advance.limit := by
      show state.depth + (7 - strong.rank) ≤ state.limit
      omega
    have hbehind : state.advance.advance.Faces (link.operand :: (linkTokens rest ++ behind)) :=
      hawaits.advance.awaits_cons.advance
    have hsame : state.advance.advance.grammar = grammar := hgrammar
    obtain ⟨after, hright, hread⟩ := hfolds.expression_eq hsame hlink.operand hdeeper hbehind
    have hkept := Keeps.after Parser.Precedes (expression (σ := σ) strong) state.advance.advance
    rw [hright] at hkept
    have hdepth : after.depth = state.depth := hkept.depth
    have hproper : after.current.kind ≠ .eof := by
      rw [hread.current]
      exact lastOperand_ne_eof hlink.operand fun other hother =>
        hrest other ((List.takeWhile_sublist _).mem hother)
    -- What is left of the chain is folded onto the operator with both its operands.
    obtain ⟨final, habsorb, hlast⟩ := houter power _ after (hkept.grammar.trans hgrammar)
      (by rw [hdepth, hkept.limit]; exact hroom) hproper hread.awaits
    refine ⟨final, ?_, ?_⟩
    · rw [absorb_of_binary (hmore.2 habove) hoperator hcurrent hright, hpeek, habsorb,
        List.takeWhile_cons_of_pos (hexceeds.2 habove), chainTree_takeWhile_exceeds hstrong habove]
    · have hpeak := hread.peak
      have hpeakLast := hlast.peak
      constructor
      · exact hlast.errors.trans hread.errors
      · rw [hdepth] at hpeakLast
        have hfirst : after.peak ≤ max state.peak (state.depth + (7 - strong.rank)) := hpeak
        omega
      · rw [hlast.current, hread.current, List.takeWhile_cons_of_pos (hexceeds.2 habove),
          Link.takeWhile_exceeds habove rest]
        exact (lastOperand_append _ _ _).symm
      · rw [List.dropWhile_cons_of_pos (hexceeds.2 habove), Link.dropWhile_exceeds habove rest]
        exact hlast.awaits
  · have hstop : Rule.continues power state = false := by
      rw [← Bool.not_eq_true, hmore]
      exact habove
    have hweak : ¬ link.exceeds grammar.power power = true := mt hexceeds.1 habove
    refine ⟨state, ?_, rfl, Nat.le_max_left _ _, ?_, ?_⟩
    · rw [absorb_of_not_continues hstop, List.takeWhile_cons_of_neg hweak, chainTree_nil]
    · rw [List.takeWhile_cons_of_neg hweak]
      rfl
    · rw [List.dropWhile_cons_of_neg hweak]
      exact hawaits

/-- A chain whose operators are all known to the grammar is folded, however long it is. -/
theorem folds_of_forall (hends : grammar.Ends behind) {links : List Link}
    (hlinks : ∀ link ∈ links, grammar.ReadsLink link) : Folds σ grammar behind links := by
  induction hlength : links.length using Nat.strongRecOn generalizing links with
  | _ length ih =>
      cases links with
      | nil => exact .nil hends
      | cons link rest =>
          have hrest : ∀ other ∈ rest, grammar.ReadsLink other :=
            fun other hother => hlinks other (List.mem_cons_of_mem link hother)
          have hfew : rest.length < length := by
            rw [← hlength]
            exact Nat.lt_succ_self _
          have hdropped := List.dropWhile_sublist (l := rest)
            (Link.exceeds grammar.power (link.strength grammar.power))
          exact .cons (hlinks link List.mem_cons_self) rfl hrest (ih _ hfew hrest rfl)
            (ih _ (Nat.lt_of_le_of_lt hdropped.length_le hfew)
              (fun other hother => hrest other (hdropped.mem hother)) rfl)

/-- A chain of leaves with binary operators between them is read as its tree, whatever powers above
the lowest its operators have and however long it is: nothing is recorded, and the parser stops at
the last operand.  Room for seven more open expressions is enough, since each right operand is read
at a greater power than what it lies in. -/
theorem expression_eq_chainTree {state : Parser σ} {first : Token} {links : List Link}
    (hfirst : state.grammar.ReadsLeaf first) (hlinks : ∀ link ∈ links, state.grammar.ReadsLink link)
    (hends : state.grammar.Ends behind) (hroom : state.depth + 7 ≤ state.limit)
    (hfaces : state.Faces (first :: (linkTokens links ++ behind))) :
    ∃ final, expression .lowest state =
        (some (chainTree state.grammar.power first.leaf links), final) ∧
      final.errors = state.errors ∧ final.Faces (lastOperand first links :: behind) ∧
      final.depth = state.depth ∧ final.peak ≤ max state.peak (state.depth + 7) := by
  have hall : ∀ link ∈ links, link.exceeds state.grammar.power .lowest = true :=
    fun link hlink => Link.exceeds_iff.2 (hlinks link hlink).lowest_lt
  have htake : (links ++ []).takeWhile (Link.exceeds state.grammar.power .lowest) = links ++ [] :=
    List.takeWhile_append_of_pos hall
  have hdrop : (links ++ []).dropWhile (Link.exceeds state.grammar.power .lowest) = [] :=
    List.dropWhile_append_of_pos hall
  have hopen : state.depth + (7 - Power.lowest.rank) ≤ state.limit := hroom
  obtain ⟨final, hresult, hread⟩ :=
    (folds_of_forall hends hlinks).expression_eq rfl hfirst hopen hfaces
  have hkept := Keeps.after Parser.Precedes (expression (σ := σ) .lowest) state
  rw [hresult] at hkept
  rw [List.append_nil] at htake hdrop
  rw [htake] at hresult hread
  rw [hdrop] at hread
  exact ⟨final, hresult, hread.errors, ⟨hread.current, hread.awaits⟩, hkept.depth, hread.peak⟩

/-- A comma as an operator that binds more tightly than a plus sign, in a parser with 249
expressions open: the plus sign is the root, and of the two commas on its right the second one. -/
theorem expression_eq_chainTree_comma :
    let grammar := (Grammar.standard.withOperator .comma .sum .binary).withOperator .plus .equality
      .binary
    let state : Parser Lexer :=
      { Parser.ofSupply (Lexer.ofSource "a , 1 + true , b , 2 ; c") maxNesting with
        grammar := grammar, depth := 249 }
    ∃ final, expression .lowest state =
        (some (.binary ⟨.plus, "+"⟩ "+"
          (.binary ⟨.comma, ","⟩ "," (.ident ⟨⟨.identifier, "a"⟩, "a"⟩)
            (.integer ⟨.integer, "1"⟩ 1))
          (.binary ⟨.comma, ","⟩ ","
            (.binary ⟨.comma, ","⟩ "," (.boolean ⟨.kwTrue, "true"⟩ true)
              (.ident ⟨⟨.identifier, "b"⟩, "b"⟩))
            (.integer ⟨.integer, "2"⟩ 2))), final) ∧
      final.errors = #[] ∧ final.Faces [⟨.integer, "2"⟩, ⟨.semicolon, ";"⟩, ⟨.identifier, "c"⟩] ∧
      final.depth = 249 ∧ final.peak ≤ maxNesting := by
  intro grammar state
  have hscan : scanAll (Lexer.ofSource "a , 1 + true , b , 2 ; c").rest =
      [⟨.identifier, "a"⟩, ⟨.comma, ","⟩, ⟨.integer, "1"⟩, ⟨.plus, "+"⟩, ⟨.kwTrue, "true"⟩,
        ⟨.comma, ","⟩, ⟨.identifier, "b"⟩, ⟨.comma, ","⟩, ⟨.integer, "2"⟩, ⟨.semicolon, ";"⟩,
        ⟨.identifier, "c"⟩] := by
    decide +kernel
  have hname (name : String) : grammar.ReadsLeaf ⟨.identifier, name⟩ := by
    refine ⟨?_, rfl, ?_⟩ <;> simp
  have hlinks : ∀ link ∈ [⟨⟨.comma, ","⟩, ⟨.integer, "1"⟩⟩, ⟨⟨.plus, "+"⟩, ⟨.kwTrue, "true"⟩⟩,
      ⟨⟨.comma, ","⟩, ⟨.identifier, "b"⟩⟩, ⟨⟨.comma, ","⟩, ⟨.integer, "2"⟩⟩],
      grammar.ReadsLink link := by
    simp only [List.mem_cons, List.not_mem_nil, or_false]
    rintro link (rfl | rfl | rfl | rfl)
    · exact ⟨⟨.sum, rfl, by decide⟩, by decide, by decide, rfl, by decide⟩
    · exact ⟨⟨.equality, rfl, by decide⟩, by decide, by decide, rfl, by decide⟩
    · exact ⟨⟨.sum, rfl, by decide⟩, by decide, hname "b"⟩
    · exact ⟨⟨.sum, rfl, by decide⟩, by decide, by decide, rfl, by decide⟩
  have hfaces := Parser.faces_ofSupply
    (Lexer.supplies_scanAll (.ofSource "a , 1 + true , b , 2 ; c")) maxNesting
  rw [hscan] at hfaces
  have hahead : state.Faces _ := hfaces.congr rfl rfl rfl
  have hends : grammar.Ends [⟨.semicolon, ";"⟩, ⟨.identifier, "c"⟩] := Or.inl rfl
  have hroom : state.depth + 7 ≤ state.limit := by decide
  obtain ⟨final, hresult, herrors, hlast, hdepth, hpeak⟩ :=
    expression_eq_chainTree (hname "a") hlinks hends hroom hahead
  have htree : chainTree state.grammar.power (Token.leaf ⟨.identifier, "a"⟩)
      [⟨⟨.comma, ","⟩, ⟨.integer, "1"⟩⟩, ⟨⟨.plus, "+"⟩, ⟨.kwTrue, "true"⟩⟩,
        ⟨⟨.comma, ","⟩, ⟨.identifier, "b"⟩⟩, ⟨⟨.comma, ","⟩, ⟨.integer, "2"⟩⟩] =
      .binary ⟨.plus, "+"⟩ "+"
        (.binary ⟨.comma, ","⟩ "," (.ident ⟨⟨.identifier, "a"⟩, "a"⟩) (.integer ⟨.integer, "1"⟩ 1))
        (.binary ⟨.comma, ","⟩ ","
          (.binary ⟨.comma, ","⟩ "," (.boolean ⟨.kwTrue, "true"⟩ true)
            (.ident ⟨⟨.identifier, "b"⟩, "b"⟩))
          (.integer ⟨.integer, "2"⟩ 2)) := by
    decide +kernel
  rw [htree] at hresult
  exact ⟨final, hresult, herrors, hlast, hdepth, hpeak⟩

end Reading

end ExprLang
