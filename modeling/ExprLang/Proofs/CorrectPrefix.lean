/-
Errors are found at the earliest token.  The prediction accepts just the rows of tokens that are
derived as programs, and whatever fits can be completed to one.  So the tokens in front of the one
that the first error is about are the beginning of a program, and together with that one they begin
no source without errors.
-/
import ExprLang.Proofs.Completeness
import ExprLang.Proofs.Soundness
import ExprLang.Proofs.Tracking

namespace ExprLang

namespace Parser

theorem quiet_ofSupply {σ : Type} [TokenSupply σ] (supply : σ) (limit : Nat) :
    (ofSupply supply limit).Quiet 2 := by
  have hnew : (⟨supply, .endOfInput, .endOfInput, .standard, limit, 0, 0, #[], #[], false⟩ :
      Parser σ).Quiet 0 :=
    ⟨rfl, [], rfl, rfl⟩
  exact hnew.advance.advance

/-- A parser at the start of a list of tokens reads the tokens of the list. -/
theorem reads_ofList {tokens : List Token} (hspelled : ∀ token ∈ tokens, token.Spelled)
    (limit : Nat) : (ofSupply tokens limit).Reads limit limit tokens where
  grammar := rfl
  room := Nat.zero_add limit
  limit := rfl
  spelled := hspelled
  faces := faces_ofSupply (supplies_self tokens) limit

end Parser

/-- The prediction accepts just what is derived as a program, however deep it is. -/
theorem exists_derives_iff {tokens : List Token} (hspelled : ∀ token ∈ tokens, token.Spelled) :
    (∃ trees depth, Derives (.statements trees) tokens depth) ↔
      follow programDue (tokens ++ [.endOfInput]) = some [] := by
  constructor
  · rintro ⟨trees, depth, htrees⟩
    have hreads := Parser.reads_ofList hspelled depth
    have herrors : (parseProgram (Parser.ofSupply tokens depth)).2.errors = #[] := by
      rcases parseProgram_complete htrees hreads with ⟨-, -, herrors⟩ | ⟨_, _, ⟨hdeep, -⟩, -⟩
      · exact herrors
      · exact absurd hdeep (Nat.lt_irrefl depth)
    rcases parseProgram_follows hreads (Parser.quiet_ofSupply tokens depth) with
      ⟨_, _, ⟨hfirst, -⟩, -⟩ | ⟨-, hfollow⟩
    · rw [herrors] at hfirst
      exact absurd (List.prefix_nil.1 hfirst) (List.cons_ne_nil _ _)
    · exact hfollow
  · intro hfollow
    -- With room for as many open expressions as there are tokens nesting never stands in the way.
    have hreads := Parser.reads_ofList hspelled (tokens.length + 1)
    rcases parseProgram_follows hreads (Parser.quiet_ofSupply tokens (tokens.length + 1)) with
      ⟨_, _, -, ⟨-, hfew⟩ | ⟨_, -, before, token, after, _, htokens, -, -, -, hmisfit⟩⟩ |
      ⟨herrors, -⟩
    · exact absurd hfew (Nat.not_succ_le_self _)
    · have hnone : follow programDue (before ++ [token] ++ after) = none :=
        follow_append_eq_none hmisfit
      rw [List.append_assoc, List.singleton_append, ← htokens, hfollow] at hnone
      contradiction
    · obtain ⟨depth, -, htrees⟩ := parseProgram_sound hreads (Array.toList_inj.1 herrors)
      exact ⟨_, depth, htrees⟩

/-- Tokens that fit are the beginning of a program. -/
theorem exists_derives_append {tokens : List Token} {reached : List Due}
    (hspelled : ∀ token ∈ tokens, token.Spelled)
    (hfollow : follow programDue tokens = some reached) :
    ∃ trees more depth, Derives (.statements trees) (tokens ++ more) depth := by
  have hreached : Completable reached :=
    Completable.program.follow (fun token htoken => (hspelled token htoken).kind_ne_eof) hfollow
  obtain ⟨more, hcompletion, hmore⟩ := hreached.exists_spelled
  have hall : ∀ token ∈ tokens ++ more, token.Spelled :=
    List.forall_mem_append.2 ⟨hspelled, hmore⟩
  have hfits : follow programDue (tokens ++ more ++ [.endOfInput]) = some [] := by
    rw [List.append_assoc, ← hcompletion, follow_append, hfollow]
    exact hreached.follow_completion
  obtain ⟨trees, depth, htrees⟩ := (exists_derives_iff hall).2 hfits
  exact ⟨trees, more, depth, htrees⟩

/-- No source that begins with tokens that do not fit is without errors. -/
theorem parse_ne_nil_of_follow_eq_none {tokens : List Token} {source : String}
    (hfollow : follow programDue tokens = none) (hbegin : tokens <+: tokenize source) :
    (parse source).2 ≠ [] := by
  intro hparse
  obtain ⟨depth, -, htrees⟩ := parse_sound hparse
  have hfits := (exists_derives_iff fun _ => spelled_of_mem_scanAll).1 ⟨_, depth, htrees⟩
  obtain ⟨later, hlater⟩ := hbegin
  rw [← tokenize_eq_scanAll, ← hlater, follow_append_eq_none hfollow] at hfits
  contradiction

/-- The place among all tokens of the one that the first error reported is about, if so many tokens
had been handed out before the reports. -/
def faultPlace? (handed : Nat) : List Event → Option Nat
  | [] => none
  | .pulled _ :: later => faultPlace? (handed + 1) later
  | .recorded error :: _ => some (handed - 1 - error.lag)
  | .entered _ _ :: later | .finished _ _ :: later => faultPlace? handed later

/-- In a block that is not closed it is the end of input. -/
example : faultPlace? 0 (parseReports "if (x) \x7b y") = some 6 ∧
    (tokenize "if (x) \x7b y")[6]? = some .endOfInput := by
  decide +kernel

theorem faultPlace?_of_prefix {handed : Nat} {tokens : List Token} {error : SyntaxError}
    {reports : List Event} (hreports : tokens.map .pulled ++ [.recorded error] <+: reports) :
    faultPlace? handed reports = some (handed + tokens.length - 1 - error.lag) := by
  obtain ⟨later, rfl⟩ := hreports
  induction tokens generalizing handed with
  | nil => rfl
  | cons token rest ih =>
      rw [List.length_cons, ← Nat.add_assoc, Nat.add_right_comm]
      exact ih

/-- The first error of a source, unless it is about nesting, is about the first token that does not
fit, and that is the one the reports tell. -/
theorem parse_misfit {source : String} {error : SyntaxError} {later : List SyntaxError}
    {kind : TokenKind} (herrors : (parse source).2 = error :: later)
    (hfound : error.found? = some kind) :
    ∃ place, faultPlace? 0 (parseReports source) = some place ∧
      Misfit (tokenize source) place error := by
  have hreads := Parser.reads_ofSource source maxNesting
  have hquiet := Parser.quiet_ofSupply (Lexer.ofSource source) maxNesting
  have hsame : (parseProgram (Parser.ofSupply (Lexer.ofSource source) maxNesting)).2.errors.toList =
      error :: later :=
    herrors
  rcases parseProgram_follows hreads hquiet with
    ⟨handed, first, ⟨hfirst, tokens, rfl, hreports⟩, hplace⟩ | ⟨hnone, -⟩
  · rw [hsame, List.cons_prefix_cons] at hfirst
    obtain ⟨rfl, -⟩ := hfirst
    rcases hplace with ⟨hnesting, -⟩ | ⟨place, hhanded, hmisfit⟩
    · rw [hnesting] at hfound
      contradiction
    · refine ⟨place, ?_, by rwa [tokenize_eq_scanAll]⟩
      have hlog : faultPlace? 0 (parseReports source) =
          some (0 + tokens.length - 1 - first.lag) := by
        show faultPlace? 0 (parseSupply (Lexer.ofSource source) maxNesting).2.log.toList = _
        exact faultPlace?_of_prefix hreports
      rw [hlog, hhanded]
      congr 1
      omega
  · rw [hnone] at hsame
    contradiction

/-- The first error of a source, unless it is about nesting, is found at the earliest token.  By the
reports it is about the token at some place: in front of that one is the beginning of a program, and
no source that begins with the tokens up to that one is without errors. -/
theorem parse_correct_prefix {source : String} {error : SyntaxError} {later : List SyntaxError}
    {kind : TokenKind} (herrors : (parse source).2 = error :: later)
    (hfound : error.found? = some kind) :
    ∃ before token after, tokenize source = before ++ token :: after ∧ token.kind = kind ∧
      faultPlace? 0 (parseReports source) = some before.length ∧
      (∃ trees more depth, Derives (.statements trees) (before ++ more) depth) ∧
      ∀ other : String, before ++ [token] <+: tokenize other → (parse other).2 ≠ [] := by
  obtain ⟨_, hplace, before, token, after, reached, htokens, rfl, hkind, hreached, hmisfit⟩ :=
    parse_misfit herrors hfound
  have hsame : token.kind = kind := Option.some.inj (hkind.symm.trans hfound)
  -- The tokens in front are not the end of input, so they are spelled right.
  have hbegin : before <+: scanAll source.toList := by
    rw [tokenize_eq_scanAll] at htokens
    rcases List.prefix_concat_iff.1 ⟨token :: after, htokens.symm⟩ with hall | hbegin
    · rw [hall] at htokens
      simp at htokens
    · exact hbegin
  have hspelled : ∀ first ∈ before, first.Spelled :=
    fun first hfirst => spelled_of_mem_scanAll (hbegin.subset hfirst)
  exact ⟨before, token, after, htokens, hsame, hplace, exists_derives_append hspelled hreached,
    fun other => parse_ne_nil_of_follow_eq_none hmisfit⟩

/-- In `(1 2` the number behind the first one cannot come there. -/
theorem parse_correct_prefix_parenthesis :
    (parse "(1 2").2 = [.unexpectedToken .closeParen .integer] ∧
      (SyntaxError.unexpectedToken .closeParen .integer).found? = some .integer ∧
      ∃ before token after, tokenize "(1 2" = before ++ token :: after ∧ token.kind = .integer ∧
        faultPlace? 0 (parseReports "(1 2") = some before.length ∧
        (∃ trees more depth, Derives (.statements trees) (before ++ more) depth) ∧
        ∀ other : String, before ++ [token] <+: tokenize other → (parse other).2 ≠ [] := by
  have herrors : (parse "(1 2").2 = [.unexpectedToken .closeParen .integer] := by decide +kernel
  exact ⟨herrors, rfl, parse_correct_prefix herrors rfl⟩

end ExprLang
