/-
Every tree that is read comes from the tokens of its source, errors or not.  Whatever a rule answers
is gathered from a front part of the tokens that were ahead, and the parser stands behind that part;
where a rule gives up, the parser has moved on over some tokens all the same, and what is read next
is gathered from the tokens behind those.  So no token is used twice and none out of order.
-/
import ExprLang.Proofs.Effect
import ExprLang.Proofs.NodeTokens
import ExprLang.Proofs.Reading

namespace ExprLang

open ParseM

namespace Parser

variable {σ : Type} [TokenSupply σ]

/-- The parser reads the language, and from the lookahead on it has just these tokens in front of
it.  It stands at the end of input only if there are none. -/
structure Foresees (state : Parser σ) (tokens : List Token) : Prop where
  grammar : state.grammar = .standard
  spelled : ∀ token ∈ tokens, token.Spelled
  awaits : state.Awaits tokens
  ended : state.current.kind = .eof → tokens = []

/-- The parser reads the language, and from the current token on it has just these tokens in front
of it. -/
structure Holds (state : Parser σ) (tokens : List Token) : Prop where
  grammar : state.grammar = .standard
  spelled : ∀ token ∈ tokens, token.Spelled
  faces : state.Faces tokens

/-- Of the tokens that were ahead a front part is used up, and `gathers` holds of it. -/
def Consumed (state : Parser σ) (tokens : List Token) (gathers : List Token → Prop) : Prop :=
  ∃ used left, tokens = used ++ left ∧ gathers used ∧ state.Foresees left

/-- A front part of the tokens, of which `gathers` holds, is used up, and the next one is
current. -/
def Met (state : Parser σ) (tokens : List Token) (gathers : List Token → Prop) : Prop :=
  ∃ used left, tokens = used ++ left ∧ gathers used ∧ state.Holds left

/-- What is ahead of the later parser is an end part of what was ahead of the earlier one. -/
def Onward (earlier later : Parser σ) : Prop :=
  ∀ tokens, earlier.Foresees tokens → later.Consumed tokens fun _ => True

variable {state : Parser σ} {token : Token} {tokens : List Token}

theorem Holds.current_cons (hholds : state.Holds (token :: tokens)) : state.current = token :=
  hholds.faces.current_cons

theorem Holds.spelled_cons (hholds : state.Holds (token :: tokens)) : token.Spelled :=
  hholds.spelled token List.mem_cons_self

/-- A current token that is not the end of input is the first of the tokens ahead. -/
theorem Holds.exists_cons (hholds : state.Holds tokens) (hkind : state.current.kind ≠ .eof) :
    ∃ rest, tokens = state.current :: rest :=
  hholds.faces.exists_cons hkind

/-- At the end of input no tokens are ahead. -/
theorem Holds.eq_nil (hholds : state.Holds tokens) (hend : state.current.kind = .eof) :
    tokens = [] := by
  cases tokens with
  | nil => rfl
  | cons token rest =>
      rw [hholds.current_cons] at hend
      exact absurd hend hholds.spelled_cons.kind_ne_eof

theorem Holds.foresees (hholds : state.Holds tokens) : state.Foresees tokens.tail where
  grammar := hholds.grammar
  spelled later hlater := hholds.spelled later (List.mem_of_mem_tail hlater)
  awaits := hholds.faces.awaits
  ended hend := by rw [hholds.eq_nil hend, List.tail_nil]

theorem Foresees.spelled_cons (hstate : state.Foresees (token :: tokens)) : token.Spelled :=
  hstate.spelled token List.mem_cons_self

theorem Foresees.advance (hstate : state.Foresees tokens) : state.advance.Holds tokens where
  grammar := hstate.grammar
  spelled := hstate.spelled
  faces := hstate.awaits.advance

theorem Holds.foresees_cons (hholds : state.Holds (token :: tokens)) : state.Foresees tokens :=
  hholds.foresees

theorem Holds.advance (hholds : state.Holds (token :: tokens)) : state.advance.Holds tokens :=
  hholds.foresees.advance

theorem Foresees.advance_cons (hstate : state.Foresees (token :: tokens)) :
    state.advance.Foresees tokens :=
  hstate.advance.foresees

omit [TokenSupply σ] in
theorem peek_kind_ne_eof {kind : TokenKind} (hpeek : state.peekIs kind = true)
    (hkind : kind ≠ .eof) : state.peek.kind ≠ .eof := by
  rwa [Parser.peekIs_iff.1 hpeek]

/-- A lookahead that is not the end of input is the first of the tokens behind the current one. -/
theorem Foresees.exists_peek (hstate : state.Foresees tokens) (hpeek : state.peek.kind ≠ .eof) :
    ∃ rest, tokens = state.peek :: rest :=
  hstate.advance.exists_cons hpeek

/-- In front of a token a parser does not stand at the end of input. -/
theorem Foresees.current_kind_ne_eof (hstate : state.Foresees tokens)
    (hpeek : state.peek.kind ≠ .eof) : state.current.kind ≠ .eof := by
  intro hend
  obtain ⟨rest, hrest⟩ := hstate.exists_peek hpeek
  rw [hstate.ended hend] at hrest
  contradiction

/-- Only the grammar, the current token, the lookahead and the supply count. -/
theorem Foresees.congr {other : Parser σ} (hstate : state.Foresees tokens)
    (hgrammar : other.grammar = state.grammar) (hcurrent : other.current = state.current)
    (hpeek : other.peek = state.peek) (hsupply : other.supply = state.supply) :
    other.Foresees tokens where
  grammar := hgrammar.trans hstate.grammar
  spelled := hstate.spelled
  awaits := ⟨hpeek.trans hstate.awaits.peek, by rw [hsupply]; exact hstate.awaits.supply⟩
  ended hend := hstate.ended (hcurrent ▸ hend)

theorem Consumed.imp {gathers other : List Token → Prop} (hstate : state.Consumed tokens gathers)
    (himp : ∀ used, gathers used → other used) : state.Consumed tokens other := by
  obtain ⟨used, left, hsplit, hused, hleft⟩ := hstate
  exact ⟨used, left, hsplit, himp used hused, hleft⟩

theorem Foresees.consumed {gathers : List Token → Prop} (hstate : state.Foresees tokens)
    (hnone : gathers []) : state.Consumed tokens gathers :=
  ⟨[], tokens, rfl, hnone, hstate⟩

instance : Lasting (@Onward σ _) where
  refl state tokens hstate := hstate.consumed trivial
  trans := by
    intro first second third hfirst hsecond tokens hstate
    obtain ⟨used, left, rfl, -, hmiddle⟩ := hfirst tokens hstate
    obtain ⟨more, last, rfl, -, hlast⟩ := hsecond left hmiddle
    exact ⟨used ++ more, last, (List.append_assoc _ _ _).symm, trivial, hlast⟩
  advance state tokens hstate := by
    refine ⟨tokens.take 1, tokens.tail, ?_, trivial, hstate.advance.foresees⟩
    cases tokens <;> rfl
  record state error tokens hstate :=
    Foresees.consumed (hstate.congr rfl rfl rfl rfl) trivial
  stall state tokens hstate := Foresees.consumed (hstate.congr rfl rfl rfl rfl) trivial
  nested {state inside} hroom hinside tokens hstate := by
    simp only [enter, hroom, ↓reduceIte] at hinside
    obtain ⟨used, left, hsplit, -, hleft⟩ := hinside tokens (hstate.congr rfl rfl rfl rfl)
    exact ⟨used, left, hsplit, trivial, hleft.congr rfl rfl rfl rfl⟩

theorem Onward.consumed {after : Parser σ} (honward : state.Onward after)
    (hholds : state.Holds tokens) : after.Consumed tokens fun _ => True := by
  obtain ⟨used, left, hsplit, -, hleft⟩ := honward tokens.tail hholds.foresees
  refine ⟨tokens.take 1 ++ used, left, ?_, trivial, hleft⟩
  rw [List.append_assoc, ← hsplit]
  cases tokens <;> rfl

/-- A parser at the start of a source has its tokens in front of it. -/
theorem holds_ofSource (source : String) (limit : Nat) :
    (ofSupply (Lexer.ofSource source) limit).Holds (scanAll source.toList) :=
  have hreads := reads_ofSource source limit
  ⟨hreads.grammar, hreads.spelled, hreads.faces⟩

end Parser

/-- What is true of the parser behind an action, if the action answers. -/
def Answers {σ α : Type} (action : ParseM σ α) (state : Parser σ)
    (answered : α → Parser σ → Prop) : Prop :=
  Ensures (fun _ => False) action state answered fun _ => True

/-- What an action answers is gathered from a front part of the tokens that are ahead. -/
def Builds {σ α : Type} [TokenSupply σ] (action : ParseM σ α) (state : Parser σ)
    (tokens : List Token) (gathers : α → List Token → Prop) : Prop :=
  Ensures (fun _ => False) action state (fun value after => after.Consumed tokens (gathers value))
    fun _ => True

/-- An expression begins with a token and is gathered from a run. -/
structure Expr.ReadFrom (token : Token) (tree : Expr) (used : List Token) : Prop where
  begins : tree.BeginsWith token
  gathered : Gathered [tree] used

theorem Expr.ReadFrom.append_right {token : Token} {tree : Expr} {used : List Token}
    (hread : Expr.ReadFrom token tree used) (tokens : List Token) :
    Expr.ReadFrom token tree (used ++ tokens) :=
  ⟨hread.begins, hread.gathered.append_right tokens⟩

/-- An expression of any power that is answered begins with the current token and is gathered from
that and the tokens behind. -/
def BuildsExpressions {σ : Type} [TokenSupply σ] (inner : Power → ParseM σ Expr) : Prop :=
  ∀ {power : Power} {state : Parser σ} {tokens : List Token}, state.Holds tokens →
    Builds (inner power) state tokens (Expr.ReadFrom state.current)

/-- Nothing, or what an answer is made of. -/
theorem Gathered.of_option {value : Option Expr} {run : List Token}
    (hvalue : ∀ tree, value = some tree → Gathered [tree] run) : Gathered value.toList run := by
  cases value with
  | none => exact .nil run
  | some tree => exact hvalue tree rfl

namespace Builds

open ExprLang.Parser

section Moves

variable {σ α β : Type} [TokenSupply σ] {state : Parser σ} {tokens : List Token}
  {final : β → Parser σ → Prop}

/-- A token that has to come next is the first of the tokens ahead. -/
theorem expect_bind {kind : TokenKind} {next : Unit → ParseM σ β} (hstate : state.Foresees tokens)
    (hkind : kind ≠ .eof)
    (hnext : ∀ rest, tokens = state.peek :: rest → state.peek.kind = kind → state.peek.Spelled →
      state.advance.Foresees rest → Answers (next ()) state.advance final) :
    Answers (expect kind >>= next) state final := by
  refine Ensures.expect_bind (fun hpeek => ?_) fun _ => Or.inr trivial
  obtain ⟨rest, rfl⟩ := hstate.exists_peek (by rwa [hpeek])
  exact hnext rest rfl hpeek (hstate.spelled _ List.mem_cons_self) hstate.advance_cons

/-- What follows an action, whether or not that answers, goes on with the tokens that are left. -/
theorem attempt_bind {action : ParseM σ α} {next : Option α → ParseM σ β}
    {gathers : α → List Token → Prop} [Keeps Onward action]
    (hholds : state.Holds tokens) (haction : Builds action state tokens gathers)
    (hnext : ∀ result used left after, tokens = used ++ left → after.Foresees left →
      (∀ value, result = some value → gathers value used) → Answers (next result) after final) :
    Answers (attempt action >>= next) state final := by
  have hkept : Ensures (fun _ => False) action state _ _ := Ensures.kept Onward haction
  refine Ensures.attempt_bind hkept ?_ ?_
  · rintro value after ⟨-, used, left, hsplit, hused, hleft⟩
    refine hnext (some value) used left after hsplit hleft ?_
    rintro _ ⟨⟩
    exact hused
  · rintro after ⟨honward, -⟩
    obtain ⟨used, left, hsplit, -, hleft⟩ := honward.consumed hholds
    exact hnext none used left after hsplit hleft fun _ hnone => nomatch hnone

/-- A semicolon that is skipped is the first of the tokens ahead. -/
theorem skipSemicolon_bind {next : Unit → ParseM σ β} (hstate : state.Foresees tokens)
    (hnext : ∀ used left after, tokens = used ++ left → after.Foresees left →
      Answers (next ()) after final) :
    Answers (Rule.skipSemicolon >>= next) state final := by
  by_cases hpeek : state.peekIs .semicolon = true
  · have hskip : Rule.skipSemicolon state = (some (), state.advance) := by
      rw [Rule.skipSemicolon, if_pos hpeek]
    obtain ⟨rest, rfl⟩ := hstate.exists_peek (peek_kind_ne_eof hpeek (by decide))
    have hlast := hnext [state.peek] rest state.advance rfl hstate.advance_cons
    rwa [Answers, Ensures, bind_of_some hskip]
  · have hskip : Rule.skipSemicolon state = (some (), state) := by
      rw [Rule.skipSemicolon, if_neg hpeek]
    have hlast := hnext [] tokens state rfl hstate
    rwa [Answers, Ensures, bind_of_some hskip]

end Moves

section Rules

variable {σ : Type} [TokenSupply σ] {inner : Power → ParseM σ Expr} {state : Parser σ}
  {token : Token} {tokens : List Token}

theorem ident (hholds : state.Holds (token :: tokens)) (hkind : token.kind = .identifier) :
    Builds Rule.ident state (token :: tokens) (Expr.ReadFrom token) := by
  have hident := Gathered.singleton_iff.1 (Gathered.ident hholds.spelled_cons hkind)
  rw [Rule.ident]
  apply Ensures.inspect_bind
  apply Ensures.pure
  rw [Parser.currentIdent, hholds.current_cons]
  exact ⟨[token], tokens, rfl, ⟨Or.inr rfl, Gathered.singleton_iff.2 hident⟩, hholds.foresees⟩

theorem integer (hholds : state.Holds (token :: tokens)) (hkind : token.kind = .integer) :
    Builds Rule.integer state (token :: tokens) (Expr.ReadFrom token) := by
  have hrun := hholds.spelled_cons.isDigitRun hkind
  rw [Rule.integer]
  apply Ensures.inspect_bind
  rw [hholds.current_cons, readInteger?_of_isDigitRun hrun]
  by_cases hle : decimalValue token.lexeme.toList ≤ maxInteger
  · rw [if_pos hle]
    apply Ensures.pure
    have hagrees : Expr.Agrees (.integer token (Int64.ofNat (decimalValue token.lexeme.toList))) :=
      ⟨hkind, hrun, hle, toInt_ofNat_decimalValue hle⟩
    exact ⟨[token], tokens, rfl,
      ⟨Or.inr rfl, Gathered.singleton_iff.2 ⟨hagrees, List.Sublist.refl _⟩⟩, hholds.foresees⟩
  · rw [if_neg hle]
    exact Ensures.fail trivial

theorem boolean (hholds : state.Holds (token :: tokens))
    (hkind : token.kind = .kwTrue ∨ token.kind = .kwFalse) :
    Builds Rule.boolean state (token :: tokens) (Expr.ReadFrom token) := by
  rw [Rule.boolean]
  apply Ensures.inspect_bind
  apply Ensures.pure
  rw [hholds.current_cons]
  have hagrees : Expr.Agrees (.boolean token (decide (token.kind = .kwTrue))) := by
    rcases hkind with hkind | hkind
    · rw [hholds.spelled_cons.eq_mk hkind rfl]
      rfl
    · rw [hholds.spelled_cons.eq_mk hkind rfl]
      rfl
  exact ⟨[token], tokens, rfl,
    ⟨Or.inr rfl, Gathered.singleton_iff.2 ⟨hagrees, List.Sublist.refl _⟩⟩, hholds.foresees⟩

theorem unary (hinner : BuildsExpressions inner) (hholds : state.Holds (token :: tokens))
    (hkind : token.kind = .minus ∨ token.kind = .bang) :
    Builds (Rule.unary inner) state (token :: tokens) (Expr.ReadFrom token) := by
  have htoken : token = ⟨.minus, "-"⟩ ∨ token = ⟨.bang, "!"⟩ :=
    hkind.imp (hholds.spelled_cons.eq_mk · rfl) (hholds.spelled_cons.eq_mk · rfl)
  rw [Rule.unary]
  apply Ensures.inspect_bind
  apply Ensures.advance_bind
  rw [hholds.current_cons]
  refine Ensures.bind (hinner hholds.advance) ?_
  rintro operand after ⟨used, left, rfl, hoperand, hleft⟩
  apply Ensures.pure
  exact ⟨token :: used, left, rfl, ⟨Or.inr rfl, hoperand.gathered.unary htoken⟩, hleft⟩

variable [∀ power, Keeps Onward (inner power)]

theorem grouped (hinner : BuildsExpressions inner) (hholds : state.Holds (token :: tokens))
    (hkind : token.kind = .openParen) :
    Builds (Rule.grouped inner) state (token :: tokens) (Expr.ReadFrom token) := by
  have htoken : token = ⟨.openParen, "("⟩ := hholds.spelled_cons.eq_mk hkind rfl
  rw [Rule.grouped]
  apply Ensures.advance_bind
  refine attempt_bind hholds.advance (hinner hholds.advance) ?_
  rintro expression used left after rfl hleft hread
  refine expect_bind hleft (by decide) ?_
  rintro rest rfl - - hrest
  refine Ensures.answer (fun tree hsome => ?_) fun _ => trivial
  have hgathered := (hread tree hsome).gathered
  have hread := (hgathered.append_right [after.peek]).cons token
  exact ⟨token :: (used ++ [after.peek]), rest, by simp, ⟨Or.inl htoken, hread⟩, hrest⟩

/-- The expression that a statement ends with, if it can be read, and a semicolon behind that. -/
theorem value_bind {β : Type} {next : Option Expr → ParseM σ β} {final : β → Parser σ → Prop}
    (hinner : BuildsExpressions inner) (hholds : state.Holds tokens)
    (hnext : ∀ value used left after, tokens = used ++ left → after.Foresees left →
      (∀ tree, value = some tree → Expr.ReadFrom state.current tree used) →
      Answers (next value) after final) :
    Answers
      (do
        let value ← attempt (inner .lowest)
        Rule.skipSemicolon
        next value)
      state final := by
  refine attempt_bind hholds (hinner hholds) ?_
  rintro value used left after rfl hleft hread
  refine skipSemicolon_bind hleft ?_
  rintro more last behind rfl hlast
  refine hnext value (used ++ more) last behind (List.append_assoc _ _ _).symm hlast ?_
  exact fun tree hsome => (hread tree hsome).append_right more

theorem binding (hinner : BuildsExpressions inner) (hholds : state.Holds (token :: tokens))
    (hkind : token.kind = .kwLet) :
    Builds (Rule.binding inner) state (token :: tokens) fun tree used => Gathered [tree] used := by
  have htoken : token = ⟨.kwLet, "let"⟩ := hholds.spelled_cons.eq_mk hkind rfl
  rw [Rule.binding]
  apply Ensures.inspect_bind
  rw [hholds.current_cons]
  refine expect_bind hholds.foresees_cons (by decide) ?_
  rintro rest rfl hname hspelled hnamed
  apply Ensures.inspect_bind
  refine expect_bind hnamed (by decide) ?_
  rintro ahead rfl - - hsigned
  apply Ensures.advance_bind
  refine value_bind hinner hsigned.advance ?_
  rintro value used left after rfl hleft hread
  apply Ensures.pure
  have hvalue := Gathered.of_option fun tree hsome => (hread tree hsome).gathered
  have hbinding := Gathered.binding htoken hspelled hname (hvalue.cons state.advance.peek)
  exact ⟨_, left, by simp, hbinding, hleft⟩

theorem returning (hinner : BuildsExpressions inner) (hholds : state.Holds (token :: tokens))
    (hkind : token.kind = .kwReturn) :
    Builds (Rule.returning inner) state (token :: tokens)
      fun tree used => Gathered [tree] used := by
  have htoken : token = ⟨.kwReturn, "return"⟩ := hholds.spelled_cons.eq_mk hkind rfl
  rw [Rule.returning]
  apply Ensures.inspect_bind
  rw [hholds.current_cons]
  apply Ensures.advance_bind
  refine value_bind hinner hholds.advance ?_
  rintro value used left after rfl hleft hread
  apply Ensures.pure
  have hvalue := Gathered.of_option fun tree hsome => (hread tree hsome).gathered
  exact ⟨token :: used, left, rfl, Gathered.returning htoken hvalue, hleft⟩

theorem expressionStatement (hinner : BuildsExpressions inner) (hholds : state.Holds tokens) :
    Builds (Rule.expressionStatement inner) state tokens fun tree used => Gathered [tree] used := by
  rw [Rule.expressionStatement]
  apply Ensures.inspect_bind
  refine value_bind hinner hholds ?_
  rintro value used left after rfl hleft hread
  cases value with
  | none => exact Or.inr trivial
  | some tree =>
      apply Ensures.pure
      obtain ⟨hbegins, hgathered⟩ := hread tree rfl
      exact ⟨used, left, rfl, Gathered.expressionStatement hbegins hgathered, hleft⟩

theorem statement (hinner : BuildsExpressions inner) (hholds : state.Holds tokens) :
    Builds (Rule.statement inner) state tokens fun tree used => Gathered [tree] used := by
  have hkind := Grammar.standard_statementRule_cases state.current.kind
  rw [Rule.statement]
  apply Ensures.inspect_bind
  rw [hholds.grammar]
  cases hrule : (Grammar.standard.statementRule state.current.kind).getD .expression with
  | binding =>
      rw [hrule] at hkind
      obtain ⟨rest, rfl⟩ := hholds.exists_cons (by rw [hkind]; decide)
      exact binding hinner hholds hkind
  | returning =>
      rw [hrule] at hkind
      obtain ⟨rest, rfl⟩ := hholds.exists_cons (by rw [hkind]; decide)
      exact returning hinner hholds hkind
  | expression => exact expressionStatement hinner hholds

/-- One round of reading statements: a statement and the advance behind it. -/
theorem statement_advance {found : List Stmt} (hinner : BuildsExpressions inner)
    (hfound : state.Met tokens (Gathered found)) :
    Ensures (fun _ => False) (Rule.statement inner) state
      (fun tree after => after.advance.Met tokens (Gathered (found ++ [tree])))
      fun after => after.advance.Met tokens (Gathered found) := by
  obtain ⟨used, left, rfl, hfound, hleft⟩ := hfound
  have hkept : Ensures (fun _ => False) (Rule.statement inner) state _ _ :=
    Ensures.kept Onward (statement hinner hleft)
  refine hkept.mono ?_ ?_
  · rintro tree after ⟨-, more, last, rfl, hmore, hlast⟩
    exact ⟨used ++ more, last, (List.append_assoc _ _ _).symm, hfound.append hmore, hlast.advance⟩
  -- A statement that is given up has used up tokens too: they are behind, and in no later tree.
  · rintro after ⟨honward, -⟩
    obtain ⟨more, last, rfl, -, hlast⟩ := honward.consumed hleft
    exact ⟨used ++ more, last, (List.append_assoc _ _ _).symm, hfound.append_right more,
      hlast.advance⟩

variable [∀ power, Keeps Nears (inner power)]

/-- A block is gathered from its opening brace, its statements and its closing brace, if it has
one. -/
theorem block (hinner : BuildsExpressions inner) (hholds : state.Holds (token :: tokens))
    (hkind : token.kind = .openCurly) :
    Builds (always (Rule.block inner)) state (token :: tokens)
      fun tree used => Gathered [tree] used := by
  have htoken : token = ⟨.openCurly, "\x7b"⟩ := hholds.spelled_cons.eq_mk hkind rfl
  refine Ensures.block_statements (fun found after => after.Met tokens (Gathered found))
    ⟨[], tokens, rfl, .nil [], hholds.advance⟩
    (fun found state _ _ => statement_advance hinner) ?_ ?_
  · rintro trees after hclosing ⟨used, left, rfl, hfound, hleft⟩
    obtain ⟨rest, rfl⟩ := hleft.exists_cons (by rw [hclosing]; decide)
    rw [hholds.current_cons]
    exact ⟨_, rest, by simp, .block htoken (hfound.append_right [after.current]), hleft.foresees⟩
  -- Without a closing brace the block runs up to the end of input, and an error is recorded there.
  · rintro trees after heof ⟨used, left, rfl, hfound, hleft⟩
    obtain rfl := hleft.eq_nil heof
    rw [hholds.current_cons]
    exact Or.inr ⟨_, [], (List.append_nil _).symm, .block htoken (hfound.append_right []),
      hleft.foresees.congr rfl rfl rfl rfl⟩

/-- The other arm of a conditional, if there is one. -/
theorem alternative (hinner : BuildsExpressions inner) (hstate : state.Foresees tokens) :
    Builds (Rule.alternative inner) state tokens
      fun other used => Gathered other.toList used := by
  rw [Rule.alternative]
  apply Ensures.inspect_bind
  by_cases hpeek : state.peekIs .kwElse = true
  · rw [if_pos hpeek]
    obtain ⟨rest, rfl⟩ := hstate.exists_peek (peek_kind_ne_eof hpeek (by decide))
    apply Ensures.advance_bind
    refine expect_bind hstate.advance_cons (by decide) ?_
    rintro behind rfl hcurly - -
    refine Ensures.bind (block hinner hstate.advance.advance hcurly) ?_
    rintro arm after ⟨used, left, hsplit, harm, hleft⟩
    apply Ensures.pure
    rw [hsplit]
    exact ⟨_, left, rfl, harm.cons state.peek, hleft⟩
  · rw [if_neg hpeek]
    exact Ensures.pure (hstate.consumed (.nil []))

theorem conditional (hinner : BuildsExpressions inner) (hholds : state.Holds (token :: tokens))
    (hkind : token.kind = .kwIf) :
    Builds (Rule.conditional inner) state (token :: tokens) (Expr.ReadFrom token) := by
  have htoken : token = ⟨.kwIf, "if"⟩ := hholds.spelled_cons.eq_mk hkind rfl
  rw [Rule.conditional]
  apply Ensures.inspect_bind
  rw [hholds.current_cons]
  refine expect_bind hholds.foresees_cons (by decide) ?_
  rintro rest rfl - - hopened
  apply Ensures.advance_bind
  refine attempt_bind hopened.advance (hinner hopened.advance) ?_
  rintro condition used left closed rfl hleft hread
  refine expect_bind hleft (by decide) ?_
  rintro rest rfl - - hclosed
  refine expect_bind hclosed (by decide) ?_
  rintro behind rfl hcurly - -
  refine Ensures.bind (block hinner hclosed.advance hcurly) ?_
  rintro consequent after ⟨inside, last, hinside, hconsequent, hlast⟩
  refine Ensures.bind (alternative hinner hlast) ?_
  rintro other final ⟨beyond, ending, rfl, hother, hending⟩
  cases condition with
  | none => exact Or.inr trivial
  | some tree =>
      apply Ensures.pure
      have hcondition := ((hread tree rfl).gathered.append_right [closed.peek]).cons state.peek
      have hconditional := Gathered.conditional htoken hcondition hconsequent hother
      rw [hinside]
      exact ⟨_, ending, by simp,
        ⟨Or.inr (Expr.head?_nodeTokens_conditional ..), hconditional⟩, hending⟩

/-- A name that has to come next. -/
theorem nextIdent (hstate : state.Foresees tokens) :
    Builds Rule.nextIdent state tokens fun name used => Gathered [name] used := by
  rw [Rule.nextIdent]
  refine expect_bind hstate (by decide) ?_
  rintro rest rfl hname hspelled hnamed
  exact Or.inr ⟨[state.peek], rest, rfl, .ident hspelled hname, hnamed⟩

/-- Parts with commas between them, up to a closing parenthesis. -/
theorem listOf {α : Type} [TreePart α] {part : ParseM σ α} [Keeps Precedes part]
    (hpart : ∀ {state : Parser σ} {tokens : List Token}, state.Foresees tokens →
      Builds part state tokens fun tree used => Gathered [tree] used)
    (hstate : state.Foresees tokens) :
    Builds (Rule.listOf part) state tokens Gathered := by
  refine Ensures.listOf (fun found after => after.Consumed tokens (Gathered found))
    (fun hpeek => ?_) (fun _ => hpart hstate) ?_ ?_
  · obtain ⟨rest, rfl⟩ := hstate.exists_peek (by rw [hpeek]; decide)
    exact ⟨[state.peek], rest, rfl, .nil _, hstate.advance_cons⟩
  -- Each part and the comma in front of it are behind the parts found before, in order.
  · rintro found state hcomma ⟨used, left, rfl, hfound, hleft⟩
    have hpeek : state.peek.kind ≠ .eof := by rw [hcomma]; decide
    refine ⟨hleft.current_kind_ne_eof hpeek, ?_⟩
    obtain ⟨rest, rfl⟩ := hleft.exists_peek hpeek
    refine (hpart hleft.advance_cons).mono ?_ fun _ => id
    rintro next after ⟨more, last, rfl, hnext, hlast⟩
    exact ⟨_, last, by simp, hfound.append (hnext.cons state.peek), hlast⟩
  · rintro found last - ⟨used, left, rfl, hfound, hleft⟩
    refine expect_bind hleft (by decide) ?_
    rintro rest rfl - - hrest
    apply Ensures.pure
    exact ⟨_, rest, by simp, hfound.append_right [last.peek], hrest⟩

theorem function (hinner : BuildsExpressions inner) (hholds : state.Holds (token :: tokens))
    (hkind : token.kind = .kwFn) :
    Builds (Rule.function inner) state (token :: tokens) (Expr.ReadFrom token) := by
  have htoken : token = ⟨.kwFn, "fn"⟩ := hholds.spelled_cons.eq_mk hkind rfl
  rw [Rule.function, Rule.parameters]
  apply Ensures.inspect_bind
  rw [hholds.current_cons]
  refine expect_bind hholds.foresees_cons (by decide) ?_
  rintro rest rfl - - hopened
  refine Ensures.bind (listOf nextIdent hopened) ?_
  rintro names after ⟨used, left, rfl, hnames, hleft⟩
  refine expect_bind hleft (by decide) ?_
  rintro behind rfl hcurly - -
  refine Ensures.bind (block hinner hleft.advance hcurly) ?_
  rintro body final ⟨inside, last, hinside, hbody, hlast⟩
  apply Ensures.pure
  rw [hinside]
  exact ⟨_, last, by simp, ⟨Or.inr rfl, .function htoken (hnames.cons state.peek) hbody⟩, hlast⟩

omit [∀ power, Keeps Onward (inner power)] [∀ power, Keeps Nears (inner power)]

/-- An operator in the lookahead that is a binary one, with its right operand. -/
theorem binary {first : Token} {left : Expr} {stratum : Stratum} (hinner : BuildsExpressions inner)
    (hstate : state.Consumed tokens (Expr.ReadFrom first left))
    (hkind : state.peek.kind ∈ stratum.operators) (hpeek : state.peek.kind ≠ .eof) :
    Ensures (fun _ => False) (Rule.binary inner left) state.advance
      (fun tree after => after.Consumed tokens (Expr.ReadFrom first tree)) fun _ => True := by
  obtain ⟨used, ahead, rfl, hleft, hahead⟩ := hstate
  obtain ⟨rest, rfl⟩ := hahead.exists_peek hpeek
  have htoken := Token.mem_binaryTokens hahead.spelled_cons hkind
  rw [Rule.binary]
  apply Ensures.inspect_bind
  apply Ensures.inspect_bind
  apply Ensures.advance_bind
  refine Ensures.bind (hinner hahead.advance.advance) ?_
  rintro right after ⟨more, last, rfl, hright, hlast⟩
  apply Ensures.pure
  exact ⟨_, last, by simp, ⟨hleft.begins.append rfl, hleft.gathered.binary htoken hright.gathered⟩,
    hlast⟩

/-- An opening parenthesis in the lookahead that makes a call, with its arguments. -/
theorem call {first : Token} {callee : Expr} (hinner : BuildsExpressions inner)
    [∀ power, Keeps Precedes (inner power)]
    (hstate : state.Consumed tokens (Expr.ReadFrom first callee))
    (hkind : state.peek.kind = .openParen) :
    Ensures (fun _ => False) (Rule.call inner callee) state.advance
      (fun tree after => after.Consumed tokens (Expr.ReadFrom first tree)) fun _ => True := by
  obtain ⟨used, ahead, rfl, hcallee, hahead⟩ := hstate
  obtain ⟨rest, rfl⟩ := hahead.exists_peek (by rw [hkind]; decide)
  have htoken : state.peek = ⟨.openParen, "("⟩ := hahead.spelled_cons.eq_mk hkind rfl
  have hargument {state : Parser σ} {tokens : List Token} (hstate : state.Foresees tokens) :
      Builds (Rule.argument inner) state tokens fun tree used => Gathered [tree] used := by
    rw [Rule.argument]
    apply Ensures.advance_bind
    refine Ensures.mono (hinner hstate.advance) ?_ fun _ => id
    exact fun tree after hread => hread.imp fun used htree => htree.gathered
  rw [Rule.call, Rule.arguments]
  apply Ensures.inspect_bind
  refine Ensures.bind (listOf hargument hahead.advance_cons) ?_
  rintro found after ⟨more, last, rfl, hfound, hlast⟩
  apply Ensures.pure
  exact ⟨_, last, by simp, ⟨hcallee.begins.append rfl, hcallee.gathered.call htoken hfound⟩, hlast⟩

theorem absorb {first : Token} {left : Expr} (hinner : BuildsExpressions inner)
    [∀ power, Keeps Precedes (inner power)] (power : Power)
    (hstate : state.Consumed tokens (Expr.ReadFrom first left)) :
    Builds (Rule.absorb inner power left) state tokens (Expr.ReadFrom first) := by
  refine Ensures.mono (Ensures.absorb_answer
    (fun left after => after.Consumed tokens (Expr.ReadFrom first left)) hstate ?_ ?_ ?_)
    (fun tree after hread => hread.2) fun _ => id
  · rintro left state ⟨used, ahead, -, -, hahead⟩
    exact hahead.grammar
  · rintro left state ⟨used, ahead, -, -, hahead⟩ hpeek
    exact hahead.current_kind_ne_eof hpeek
  · rintro left state strength rule hread hoperator - hpeek
    rcases Grammar.standard_operator_cases hoperator with
      ⟨stratum, hkind, -, rfl⟩ | ⟨hkind, -, rfl⟩
    · exact binary hinner hread hkind hpeek
    · exact call hinner hread hkind

variable [∀ power, Keeps Onward (inner power)] [∀ power, Keeps Nears (inner power)]

theorem start (hinner : BuildsExpressions inner) (hholds : state.Holds tokens) :
    Builds (Rule.start inner) state tokens (Expr.ReadFrom state.current) := by
  rw [Rule.start]
  apply Ensures.inspect_bind
  apply Ensures.inspect_bind
  rw [hholds.grammar]
  cases hrule : Grammar.standard.startRule state.current.kind with
  | none => exact Ensures.fail trivial
  | some rule =>
      have hkind := Grammar.standard_startRule_cases hrule
      obtain ⟨rest, rfl⟩ := hholds.exists_cons (Grammar.ne_eof_of_standard_startRule hrule)
      cases rule with
      | ident => exact ident hholds hkind
      | integer => exact integer hholds hkind
      | boolean => exact boolean hholds hkind
      | unary => exact unary hinner hholds hkind
      | grouped => exact grouped hinner hholds hkind
      | conditional => exact conditional hinner hholds hkind
      | function => exact function hinner hholds hkind

theorem body [∀ power, Keeps Precedes (inner power)] (hinner : BuildsExpressions inner)
    (power : Power) (hholds : state.Holds tokens) :
    Builds (Rule.body inner power) state tokens (Expr.ReadFrom state.current) := by
  rw [Rule.body]
  exact Ensures.bind (start hinner hholds) fun left after hleft => absorb hinner power hleft

end Rules

variable {σ : Type} [TokenSupply σ]

/-- Reading an expression opens it first, which uses up nothing. -/
theorem expressionWithin (room : Nat) :
    BuildsExpressions (Rule.expressionWithin room : Power → ParseM σ Expr) := by
  induction room with
  | zero =>
      intro power state tokens hholds
      rw [Rule.expressionWithin]
      refine Ensures.nested (fun _ => ?_) fun _ => Or.inr trivial
      exact Or.inr trivial
  | succ room ih =>
      intro power state tokens hholds
      rw [Rule.expressionWithin]
      refine Ensures.nested (fun hopen => ?_) fun _ => Or.inr trivial
      have hinside : state.enter.2.Holds tokens := by
        simp only [Parser.enter, hopen, ↓reduceIte]
        exact ⟨hholds.grammar, hholds.spelled, hholds.faces.congr rfl rfl rfl⟩
      have hcurrent : state.enter.2.current = state.current := by
        simp only [Parser.enter, hopen, ↓reduceIte]
      refine Ensures.mono (body ih power hinside) ?_ fun _ => id
      rintro tree inside ⟨used, left, hsplit, htree, hleft⟩
      rw [hcurrent] at htree
      exact ⟨used, left, hsplit, htree, hleft.congr rfl rfl rfl rfl⟩

theorem expression : BuildsExpressions (expression : Power → ParseM σ Expr) :=
  fun {_ state _} hholds => expressionWithin (state.limit - state.depth) hholds

/-- The statements of a program are gathered from the tokens ahead. -/
theorem statements {state : Parser σ} {tokens : List Token} (hholds : state.Holds tokens) :
    Gathered (Rule.statements ExprLang.expression state).1 tokens := by
  have hread := Ensures.answersWhile_answers (fun state : Parser σ => !state.currentIs .eof)
    (Rule.statement ExprLang.expression)
    (fun found after => after.Met tokens (Gathered found)) [] ⟨[], tokens, rfl, .nil [], hholds⟩
    (fun state hmore => by simpa [Parser.currentIs] using hmore)
    fun found state _ hfound => statement_advance expression hfound
  obtain hnever | ⟨-, used, left, rfl, hfound, -⟩ := hread
  · exact hnever.elim
  · exact hfound.append_right left

end Builds

theorem gathered_parse (source : String) :
    Gathered (parse source).1.statements (scanAll source.toList) :=
  Builds.statements (Parser.holds_ofSource source maxNesting)

/-- Every node of the tree of a source, at any depth, agrees with its token. -/
theorem agrees_parse (source : String) : (parse source).1.Agrees :=
  Stmt.agreesEach_iff.2 (gathered_parse source).agrees

/-- The tokens of the nodes, in the order of the source, are found in that order among the tokens of
the source: none is used twice. -/
theorem nodeTokens_parse_sublist (source : String) :
    (parse source).1.nodeTokens.Sublist (tokenize source) := by
  rw [Program.nodeTokens, Stmt.nodeTokensEach_eq, tokenize_eq_scanAll]
  exact (gathered_parse source).sublist.trans (List.sublist_append_left _ _)

end ExprLang
