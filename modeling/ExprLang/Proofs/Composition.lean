/-
Programs one behind the other.  Once a row of statements has been read without errors up to a
semicolon, what follows is read as if nothing had come before it.  A row that ends otherwise can be
given a semicolon without being read differently, as no statement ends with one of its own.
-/
import ExprLang.Proofs.Completeness
import ExprLang.Proofs.Remaining
import ExprLang.Proofs.Soundness

namespace ExprLang

variable {σ τ : Type} [TokenSupply σ] [TokenSupply τ]

/-- There are no tokens, or a semicolon is the last one. -/
def Terminated (tokens : List Token) : Prop :=
  ∀ last ∈ tokens.getLast?, last.kind = .semicolon

/-- A semicolon is not the last token. -/
def Unterminated (tokens : List Token) : Prop :=
  ∀ last ∈ tokens.getLast?, last.kind ≠ .semicolon

namespace Terminated

variable {mark : Token} {first second : List Token}

theorem of_append (hrow : Terminated (first ++ second)) : Terminated second := by
  intro last hlast
  apply hrow
  rw [List.getLast?_append, Option.mem_def.1 hlast]
  rfl

theorem of_cons (hrow : Terminated (mark :: second)) : Terminated second := by
  rw [← List.singleton_append] at hrow
  exact hrow.of_append

theorem append (hsecond : Terminated second) (hne : second ≠ []) :
    Terminated (first ++ second) := by
  intro last hlast
  rw [List.getLast?_append, List.getLast?_eq_some_getLast hne] at hlast
  exact hsecond last (List.getLast?_eq_some_getLast hne ▸ hlast)

theorem cons (hmark : mark.kind = .semicolon) (hsecond : Terminated second) :
    Terminated (mark :: second) := by
  intro last hlast
  rw [List.getLast?_cons] at hlast
  cases hend : second.getLast? with
  | none =>
      rw [hend] at hlast
      obtain rfl : mark = last := Option.some.inj hlast
      exact hmark
  | some other =>
      rw [hend] at hlast
      obtain rfl : other = last := Option.some.inj hlast
      exact hsecond other hend

end Terminated

namespace Unterminated

variable {token : Token} {kind : TokenKind} {first second tokens : List Token}

theorem nil : Unterminated [] := by
  intro last hlast
  contradiction

theorem singleton (hkind : token.kind = kind) (hne : kind ≠ .semicolon) : Unterminated [token] := by
  intro last hlast
  obtain rfl : token = last := Option.some.inj hlast
  rwa [hkind]

theorem append (hfirst : Unterminated first) (hsecond : Unterminated second) :
    Unterminated (first ++ second) := by
  intro last hlast
  rw [List.getLast?_append, Option.mem_def, Option.or_eq_some_iff] at hlast
  rcases hlast with hlast | ⟨-, hlast⟩
  · exact hsecond last hlast
  · exact hfirst last hlast

/-- Only the last token counts. -/
theorem append_of_ne_nil (hne : second ≠ []) (hsecond : Unterminated second) :
    Unterminated (first ++ second) := by
  intro last hlast
  rw [List.getLast?_append, List.getLast?_eq_some_getLast hne] at hlast
  exact hsecond last (List.getLast?_eq_some_getLast hne ▸ hlast)

theorem cons (hkind : token.kind = kind) (hne : kind ≠ .semicolon) (htokens : Unterminated tokens) :
    Unterminated (token :: tokens) :=
  append (singleton hkind hne) htokens

theorem concat (hkind : token.kind = kind) (hne : kind ≠ .semicolon) :
    Unterminated (tokens ++ [token]) :=
  append_of_ne_nil (List.cons_ne_nil _ _) (singleton hkind hne)

theorem not_terminated (hopen : Unterminated tokens) (hne : tokens ≠ []) : ¬ Terminated tokens := by
  intro hrow
  have hlast := List.getLast?_eq_some_getLast hne
  exact hopen _ hlast (hrow _ hlast)

end Unterminated

/-- Whether a phrase is a row of statements. -/
def Phrase.isRow : Phrase → Bool
  | .statements _ => true
  | _ => false

/-- Only rows of statements can end with a semicolon. -/
theorem Derives.unterminated_tokens {phrase : Phrase} {tokens : List Token} {depth : Nat}
    (hphrase : Derives phrase tokens depth) (hrow : phrase.isRow = false) :
    Unterminated tokens := by
  induction hphrase with
  | ident hkind => exact .singleton hkind (by decide)
  | integer hkind => exact .singleton hkind (by decide)
  | boolean hkind =>
      rcases hkind with hkind | hkind <;> exact .singleton hkind (by decide)
  | grouped _ _ hclosing =>
      rw [← List.cons_append]
      exact .concat hclosing (by decide)
  | conditional hkind hopening _ hclosing _ _ ih₁ ih₂ ih₃ =>
      exact .cons hkind (by decide) (.cons hopening (by decide) ((ih₁ rfl).append
        (.cons hclosing (by decide) ((ih₂ rfl).append (ih₃ rfl)))))
  | function hkind hopening hnames hclosing _ ih =>
      exact .cons hkind (by decide) (.cons hopening (by decide)
        (.append_of_ne_nil (List.cons_ne_nil _ _) (.cons hclosing (by decide) (ih rfl))))
  | call _ _ _ hclosing =>
      rw [← List.cons_append, ← List.append_assoc]
      exact .concat hclosing (by decide)
  | unary hkind _ ih =>
      rcases hkind with hkind | hkind <;> exact .cons hkind (by decide) (ih rfl)
  | binary _ _ hright _ ih =>
      obtain ⟨head, later, rfl, -⟩ := hright.exists_starter
      rw [← List.singleton_append, ← List.append_assoc]
      exact .append_of_ne_nil (List.cons_ne_nil _ _) (ih rfl)
  | tighter _ ih => exact ih rfl
  | noArguments => exact .nil
  | arguments _ _ ih₁ ih₂ => exact (ih₁ rfl).append (ih₂ rfl)
  | noMoreArguments => exact .nil
  | moreArguments hcomma _ _ ih₁ ih₂ =>
      exact .cons hcomma (by decide) ((ih₁ rfl).append (ih₂ rfl))
  | block _ _ hclosing =>
      rw [← List.cons_append]
      exact .concat hclosing (by decide)
  | noAlternative => exact .nil
  | alternative hkind _ ih => exact .cons hkind (by decide) (ih rfl)
  | binding hkind hname hsign _ ih =>
      exact .cons hkind (by decide) (.cons hname (by decide) (.cons hsign (by decide) (ih rfl)))
  | returning hkind _ ih => exact .cons hkind (by decide) (ih rfl)
  | expression _ ih => exact ih rfl
  | noStatements => cases hrow
  | terminated => cases hrow
  | unterminated => cases hrow

/-- No tokens are a row of no statements. -/
theorem Derives.statements_nil {trees : List Stmt} {depth : Nat}
    (hrow : Derives (.statements trees) [] depth) : trees = [] ∧ depth = 0 := by
  generalize htokens : ([] : List Token) = tokens at hrow
  cases hrow with
  | noStatements => exact ⟨rfl, rfl⟩
  | terminated => simp at htokens
  | unterminated hfirst =>
      obtain ⟨head, later, rfl, -⟩ := hfirst.exists_first
      simp at htokens

/-- A row of statements that ends without a semicolon can be given one. -/
theorem Derives.append_semicolon {trees : List Stmt} {tokens : List Token} {depth : Nat}
    (hrow : Derives (.statements trees) tokens depth) (semicolon : Token)
    (hkind : semicolon.kind = .semicolon) (hopen : ¬ Terminated tokens) :
    Derives (.statements trees) (tokens ++ [semicolon]) depth := by
  generalize hphrase : Phrase.statements trees = phrase at hrow
  induction hrow generalizing trees with
  | noStatements => exact absurd (fun last hlast => nomatch hlast) hopen
  | @terminated mark tree later first second d₁ d₂ hfirst hmark hsecond _ ih =>
      obtain rfl := Phrase.statements.inj hphrase
      have hlater : ¬ Terminated second := fun hlater =>
        hopen ((hlater.cons hmark).append (List.cons_ne_nil _ _))
      rw [List.append_assoc, List.cons_append]
      exact .terminated hfirst hmark (ih hlater rfl)
  | @unterminated tree later first second d₁ d₂ hfirst hfree hsecond _ ih =>
      obtain rfl := Phrase.statements.inj hphrase
      rw [List.append_assoc]
      cases second with
      | nil =>
          obtain ⟨rfl, rfl⟩ := hsecond.statements_nil
          exact .terminated hfirst hkind .noStatements
      | cons head rest =>
          have hlater : ¬ Terminated (head :: rest) := fun hlater =>
            hopen (hlater.append (List.cons_ne_nil _ _))
          exact .unterminated hfirst hfree (ih hlater rfl)
  | _ => cases hphrase

/-- Reading statements has got through a row of them without an error, and what is left is read on
its own. -/
structure Passes (state : Parser σ) (trees : List Stmt) (limit room : Nat) (rest : List Token)
    (after : Parser σ) : Prop where
  moves : state.Moves after
  errors : after.errors = state.errors
  reads : after.Reads limit room rest
  statements : Rule.statements expression state =
    (trees ++ (Rule.statements expression after).1, (Rule.statements expression after).2)

namespace Passes

variable {state after last : Parser σ} {trees others : List Stmt} {limit room depth : Nat}
  {used rest behind : List Token}

theorem nil (hreads : state.Reads limit room rest) : Passes state [] limit room rest state :=
  ⟨Enduring.refl state, rfl, hreads, rfl⟩

theorem append (hfirst : Passes state trees limit room behind after)
    (hsecond : Passes after others limit room rest last) :
    Passes state (trees ++ others) limit room rest last where
  moves := Enduring.trans hfirst.moves hsecond.moves
  errors := hsecond.errors.trans hfirst.errors
  reads := hsecond.reads
  statements := by rw [hfirst.statements, hsecond.statements, List.append_assoc]

/-- A statement is passed together with the semicolon behind it. -/
theorem statement {tree : Stmt} (htree : Derives (.statement tree) used depth)
    (hdepth : depth ≤ room) (hreads : state.Reads limit room (used ++ rest))
    (hfree : StartsWithout (.kwElse :: continuations) rest) :
    ∃ after, Passes state [tree] limit room (behindSemicolon rest) after := by
  have hmore : (!state.currentIs .eof) = true := by
    obtain ⟨head, later, rfl, -⟩ := htree.exists_first
    simpa [Parser.currentIs] using hreads.kind_ne_eof
  have hkept := Keeps.after Parser.Precedes (Rule.statement expression) state
  have hmoves := Keeps.after Parser.Moves (Rule.statement expression) state
  rcases htree.completes hreads hfree with
    ⟨found, last, hresult, herrors, rfl, -, hlast, hafter⟩ | ⟨error, more, ⟨hdeep, -⟩, -⟩
  · rw [hresult] at hkept hmoves
    refine ⟨last.advance, Enduring.trans hmoves (Enduring.advance last), herrors, hafter, ?_⟩
    exact ParseM.answersWhile_of_lt hmore hresult (hkept.ahead_advance_lt hlast)
  · exact absurd hdepth (Nat.not_le.2 hdeep)

/-- A whole row of statements is passed up to its last semicolon, whatever is behind it. -/
theorem row (hrow : Derives (.statements trees) used depth) (hend : Terminated used)
    (hdepth : depth ≤ room) (hreads : state.Reads limit room (used ++ rest)) :
    ∃ after, Passes state trees limit room rest after := by
  generalize hphrase : Phrase.statements trees = phrase at hrow
  induction hrow generalizing trees state with
  | noStatements =>
      obtain rfl := Phrase.statements.inj hphrase
      exact ⟨state, .nil hreads⟩
  | @terminated mark tree later first second d₁ d₂ hfirst hmark hsecond _ ih =>
      obtain rfl := Phrase.statements.inj hphrase
      rw [List.append_assoc, List.cons_append] at hreads
      obtain ⟨middle, hmiddle⟩ := statement hfirst (by omega) hreads (by
        intro token htoken
        obtain rfl : mark = token := Option.some.inj htoken
        rw [hmark]
        decide)
      rw [behindSemicolon, if_pos hmark] at hmiddle
      obtain ⟨after, hafter⟩ := ih hend.of_append.of_cons (by omega) hmiddle.reads rfl
      exact ⟨after, hmiddle.append hafter⟩
  | @unterminated tree later first second d₁ d₂ hfirst hfree hsecond _ ih =>
      obtain rfl := Phrase.statements.inj hphrase
      rw [List.append_assoc] at hreads
      cases second with
      | nil =>
          obtain ⟨head, later, rfl, -⟩ := hfirst.exists_first
          rw [List.append_nil] at hend
          exact absurd hend
            ((hfirst.unterminated_tokens rfl).not_terminated (List.cons_ne_nil _ _))
      | cons head others =>
          have hkind := hsecond.statements_start head rfl
          have helse : head.kind ≠ .kwElse := fun helse => by
            rw [helse] at hkind
            exact absurd hkind (by decide)
          have hmark : head.kind ≠ .semicolon := fun hmark => by
            rw [hmark] at hkind
            exact absurd hkind (by decide)
          obtain ⟨middle, hmiddle⟩ := statement hfirst (by omega) hreads (by
            intro token htoken
            obtain rfl : head = token := Option.some.inj htoken
            rw [List.mem_cons, not_or]
            exact ⟨helse, hfree head rfl⟩)
          rw [List.cons_append, behindSemicolon, if_neg hmark] at hmiddle
          obtain ⟨after, hafter⟩ := ih hend.of_append (by omega) hmiddle.reads rfl
          exact ⟨after, hmiddle.append hafter⟩
  | _ => cases hphrase

end Passes

/-- A semicolon joins no token in front of it. -/
theorem Token.joins_semicolon (token : Token) : token.joins ';' = false := by
  obtain ⟨kind, lexeme⟩ := token
  cases kind <;> rfl

/-- On its way a parser keeps having just the tokens in front of it left. -/
theorem Parser.HasLeft.of_moves {state after : Parser σ} {tokens rest : List Token}
    (hleft : state.HasLeft tokens) (hmoves : state.Moves after) (hfaces : after.Faces rest)
    (hproper : ∀ token ∈ rest, token.kind ≠ .eof) : after.HasLeft rest := by
  obtain ⟨others, hafter⟩ := hleft.exists_of_moves hmoves
  rwa [← hafter.unique hfaces hproper]

/-- Behind a source that starts with the tokens of a row of statements up to a semicolon, any other
source is read as by itself. -/
theorem parse_of_row {source other : String} {trees : List Stmt} {used : List Token} {depth : Nat}
    (hrow : Derives (.statements trees) used depth) (hdepth : depth ≤ maxNesting)
    (hend : Terminated used)
    (htokens : scanAll source.toList = used ++ scanAll other.toList) :
    parse source = (⟨trees ++ (parse other).1.statements⟩, (parse other).2) := by
  have hreads := Parser.reads_ofSource source maxNesting
  rw [htokens] at hreads
  obtain ⟨after, hmoves, herrors, hafter, hstatements⟩ := Passes.row hrow hend hdepth hreads
  have hleft := Parser.hasLeft_ofLexer (.ofSource source) maxNesting
  have hother := Parser.hasLeft_ofLexer (.ofSource other) maxNesting
  have hdeep : after.depth = 0 := by
    have hroom := hafter.room
    omega
  have halike : after.Alike after.stalled (.ofSupply (Lexer.ofSource other) maxNesting) := by
    refine ⟨⟨_, hleft.of_moves hmoves hafter.faces hother.proper, hother⟩, hafter.grammar,
      hafter.limit, hdeep, ?_, (Bool.or_false _).symm⟩
    rw [herrors]
    rfl
  have hrest : ((parseProgram after).1, (parseProgram after).2.errors.toList) = parse other :=
    parseProgram_eq_of_alike halike
  generalize hstart : Parser.ofSupply (Lexer.ofSource source) maxNesting = start at *
  have hsource : parse source = (⟨(Rule.statements expression start).1⟩,
      (Rule.statements expression start).2.errors.toList) := by
    rw [← hstart]
    rfl
  rw [hsource, hstatements, ← hrest]
  rfl

/-- Sources compose.  Let one be read without errors.  If it has no tokens or a semicolon is its
last one, any other source can follow: the statements are those of the first and then those of the
other, and the errors are those of the other.  If it ends otherwise, the same holds with a semicolon
in between. -/
theorem parse_append {source : String} {tokens : List Token} (other : String)
    (htokens : tokenize source = tokens ++ [.endOfInput]) (hparse : (parse source).2 = []) :
    (Terminated tokens → parse (source ++ other) =
      (⟨(parse source).1.statements ++ (parse other).1.statements⟩, (parse other).2)) ∧
    (¬ Terminated tokens → parse (source ++ ";" ++ other) =
      (⟨(parse source).1.statements ++ (parse other).1.statements⟩, (parse other).2)) := by
  obtain ⟨depth, hdepth, hrow⟩ := parse_sound hparse
  rw [tokenize_eq_scanAll, List.append_cancel_right_eq] at htokens
  subst htokens
  constructor
  · intro hend
    refine parse_of_row hrow hdepth hend ?_
    rw [String.toList_append, scanAll_append]
    intro last hlast c _
    rw [Token.joins, hend last hlast]
  · intro hopen
    refine parse_of_row (hrow.append_semicolon ⟨.semicolon, ";"⟩ rfl hopen) hdepth ?_ ?_
    · intro last hlast
      rw [List.getLast?_concat] at hlast
      obtain rfl := Option.some.inj hlast
      rfl
    · have hmark : scanAll (";".toList ++ other.toList) =
          ⟨.semicolon, ";"⟩ :: scanAll other.toList :=
        scanAll_mark_cons rfl other.toList
      rw [String.toList_append, String.toList_append, List.append_assoc, scanAll_append, hmark,
        List.append_assoc]
      · rfl
      · intro last _ c hc
        obtain rfl : ';' = c := Option.some.inj hc
        exact last.joins_semicolon

/-- A faulty source behind one without errors, with a semicolon of its own and without. -/
theorem parse_append_faulty :
    parse ("let a = 1;" ++ ") a") =
      (⟨(parse "let a = 1;").1.statements ++ (parse ") a").1.statements⟩, (parse ") a").2) ∧
    parse ("f" ++ ";" ++ "(1") =
      (⟨(parse "f").1.statements ++ (parse "(1").1.statements⟩, (parse "(1").2) ∧
    (parse ") a").2 ≠ [] ∧ (parse "(1").2 ≠ [] := by
  have hbinding : tokenize "let a = 1;" = [⟨.kwLet, "let"⟩, ⟨.identifier, "a"⟩, ⟨.assign, "="⟩,
      ⟨.integer, "1"⟩, ⟨.semicolon, ";"⟩] ++ [.endOfInput] := by
    decide +kernel
  have hname : tokenize "f" = [⟨.identifier, "f"⟩] ++ [.endOfInput] := by decide +kernel
  have hfirst := parse_append ") a" hbinding (by decide +kernel)
  have hsecond := parse_append "(1" hname (by decide +kernel)
  refine ⟨hfirst.1 ?_, hsecond.2 ?_, by decide +kernel, by decide +kernel⟩
  · intro last hlast
    obtain rfl := Option.some.inj hlast
    rfl
  · intro hend
    exact TokenKind.noConfusion (hend _ rfl)

end ExprLang
