/-
Nothing of a source is lost and nothing is invented.  What is known of a lexer over characters, that
it steps over blanks and then over the text of a token, is read off the cursor of a lexer over bytes
that is asked the same.
-/
import ExprLang.Proofs.Boundaries

namespace ExprLang

namespace Lexer

variable {lexer later : Lexer}

theorem Reaches.use (hreaches : lexer.Reaches later) (use : LexerUse) :
    lexer.Reaches (later.use use).2 := by
  cases use with
  | nextToken => exact hreaches.nextToken
  | next => exact hreaches.next?
  | copy => exact hreaches

theorem Reaches.useAll (hreaches : lexer.Reaches later) (uses : List LexerUse) :
    lexer.Reaches (later.useAll uses).2 := by
  induction uses generalizing later with
  | nil => exact hreaches
  | cons use uses ih => exact ih (hreaches.use use)

end Lexer

namespace ByteLexer.Mirrors

variable {lexer : ByteLexer} {source : String} {running : Lexer}

/-- The cursor moves over blanks and then over just the bytes of the token that is read. -/
theorem stepsOver_nextToken? (hmirrors : lexer.Mirrors source running)
    (hstands : running.StandsIn source) :
    ∃ after, lexer.nextToken? = some (running.nextToken.1, after) ∧
      after.Mirrors source running.nextToken.2 ∧
      StepsOver source lexer.position running.nextToken.1 after.position := by
  obtain ⟨after, htoken, hafter⟩ := hmirrors.nextToken?
  refine ⟨after, htoken, hafter, ?_⟩
  rw [hmirrors.position_eq, hafter.position_eq]
  exact hstands.stepsOver_nextToken

/-- Once the end of input has been read, the cursor is at the end of the source and stays there, and
nothing else is read any more. -/
theorem ends {after : ByteLexer} (hafter : after.Mirrors source running.nextToken.2)
    (hstands : running.StandsIn source) (heof : running.nextToken.1.kind = .eof) :
    running.nextToken.1 = .endOfInput ∧ after.position = source.utf8ByteSize ∧
      ∀ uses, ∃ yields later last, after.useAll? uses = some (yields, later) ∧
        later.nextToken? = some (.endOfInput, last) ∧ later.position = after.position ∧
        last.position = later.position := by
  obtain ⟨hend, hplace, hstays⟩ := hstands.ends heof
  refine ⟨hend, hafter.position_eq.trans hplace, fun uses => ?_⟩
  obtain ⟨later, huses, hlater⟩ := hafter.useAll? uses
  obtain ⟨last, htoken, hlast⟩ := hlater.nextToken?
  obtain ⟨hsame, hposition, hunmoved⟩ := hstays _ (Lexer.Reaches.refl.useAll uses)
  rw [hsame] at htoken
  refine ⟨_, later, last, huses, htoken, ?_, ?_⟩
  · rw [hlater.position_eq, hposition, hafter.position_eq]
  · rw [hlast.position_eq, hunmoved, hlater.position_eq]

end ByteLexer.Mirrors

/-- Nothing of a source is lost and nothing is invented.  Its tokens, with the end of input behind
them and nowhere else, tile it.  A lexer that has been used on it in whatever way moves over blanks
and then over just the bytes of the token it answers with, until it stays at the end; and so does
the cursor of a lexer over bytes. -/
theorem tokenize_lossless (source : String) :
    (∃ tokens, tokenize source = tokens ++ [.endOfInput] ∧ Token.endOfInput = ⟨.eof, ""⟩ ∧
        (∀ token ∈ tokens, token.kind ≠ .eof) ∧ Tiles source.toList tokens) ∧
      (∀ lexer, (Lexer.ofSource source).Reaches lexer →
        StepsOver source lexer.position lexer.nextToken.1 lexer.nextToken.2.position ∧
        (lexer.nextToken.1.kind = .eof →
          lexer.nextToken.1 = .endOfInput ∧
          lexer.nextToken.2.position = source.utf8ByteSize ∧
          ∀ later, lexer.nextToken.2.Reaches later →
            later.nextToken.1 = .endOfInput ∧
            later.position = lexer.nextToken.2.position ∧
            later.nextToken.2.position = later.position)) ∧
      ∀ uses, ∃ yields lexer token after,
        (ByteLexer.ofSource source).useAll? uses = some (yields, lexer) ∧
        lexer.nextToken? = some (token, after) ∧
        StepsOver source lexer.position token after.position ∧
        (token.kind = .eof →
          token = .endOfInput ∧
          after.position = source.utf8ByteSize ∧
          ∀ uses, ∃ yields later last, after.useAll? uses = some (yields, later) ∧
            later.nextToken? = some (.endOfInput, last) ∧
            later.position = after.position ∧
            last.position = later.position) := by
  have hstart := Lexer.standsIn_ofSource source
  refine ⟨⟨scanAll source.toList, tokenize_eq_scanAll source, rfl, ?_, tiles_scanAll _⟩, ?_, ?_⟩
  · intro token hmem
    exact (spelled_of_mem_scanAll hmem).kind_ne_eof
  · intro lexer hreaches
    have hstands := hreaches.standsIn hstart
    exact ⟨hstands.stepsOver_nextToken, hstands.ends⟩
  · intro uses
    obtain ⟨lexer, huses, hmirrors⟩ := (ByteLexer.Mirrors.ofSource source).useAll? uses
    have hstands := (Lexer.Reaches.refl.useAll uses).standsIn hstart
    obtain ⟨after, htoken, hafter, hsteps⟩ := hmirrors.stepsOver_nextToken? hstands
    exact ⟨_, lexer, _, after, huses, htoken, hsteps,
      hafter.ends hstands⟩

end ExprLang
