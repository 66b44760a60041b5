/-
Two ways of asking a lexer for tokens share one stream.  Whatever the order in which tokens and
items of the sequence of tokens are asked for, the answers are the tokens of the source one by one
and then the end of input for ever.  Only the sequence ends: it does so behind the first end of
input that is itself one of its items, and not where the end of input was answered as a token
before.
-/
import ExprLang.ByteLexer
import ExprLang.Proofs.Spelling
import Mathlib.Data.List.ReduceOption

namespace ExprLang

/-- The tokens of a source by number, and behind them the end of input for ever. -/
def streamAt (source : String) (index : Nat) : Token :=
  (tokenize source).getD index .endOfInput

/-- What the uses of a new lexer yield, one after the other. -/
def yieldsOf (source : String) (uses : List LexerUse) : List (Option Token) :=
  ((Lexer.ofSource source).useAll uses).1

/-- Of a row of uses and what they yield, the one at an index asks for an item and gets the end of
input. -/
def EndsAt (uses : List LexerUse) (yields : List (Option Token)) (index : Nat) : Prop :=
  uses[index]? = some .next ∧ ∃ token, yields[index]? = some (some token) ∧ token.kind = .eof

/-- The end of input stands behind the tokens of a source anyway. -/
theorem streamAt_eq_getD (source : String) (index : Nat) :
    streamAt source index = (scanAll source.toList).getD index .endOfInput := by
  rw [streamAt, tokenize_eq_scanAll, List.getD_eq_getElem?_getD, List.getD_eq_getElem?_getD,
    List.getElem?_append]
  split
  · rfl
  · next hlast =>
      rw [List.getElem?_eq_none (Nat.not_lt.1 hlast)]
      cases index - (scanAll source.toList).length <;> rfl

theorem endsAt_zero {use : LexerUse} {uses : List LexerUse} {yielded : Option Token}
    {yields : List (Option Token)} :
    EndsAt (use :: uses) (yielded :: yields) 0 ↔
      use = .next ∧ ∃ token, yielded = some token ∧ token.kind = .eof := by
  simp [EndsAt]

namespace Lexer

/-- What one use of a lexer does: it yields nothing and leaves the lexer as it is, or it yields the
next token and moves behind that. -/
theorem use_cases (lexer : Lexer) (use : LexerUse) :
    ((lexer.use use).1 = none ∧ (lexer.use use).2 = lexer ∧
        (use = .copy ∨ use = .next ∧ lexer.ended = true)) ∨
      (lexer.use use).1 = some lexer.nextToken.1 ∧
        (lexer.use use).2.rest = lexer.nextToken.2.rest ∧
        ((lexer.use use).2.ended = true ↔
          lexer.ended = true ∨ use = .next ∧ lexer.nextToken.1.kind = .eof) ∧
        (use = .nextToken ∨ use = .next ∧ lexer.ended = false) := by
  cases use with
  | nextToken => exact Or.inr ⟨rfl, rfl, by simp [Lexer.use], Or.inl rfl⟩
  | next =>
      cases hended : lexer.ended with
      | true => exact Or.inl (by simp [Lexer.use, next?, hended])
      | false => exact Or.inr (by simp [Lexer.use, next?, hended])
  | copy => exact Or.inl ⟨rfl, rfl, Or.inl rfl⟩

/-- An item is missing exactly where the sequence has ended. -/
theorem use_next_eq_none_iff (lexer : Lexer) :
    (lexer.use .next).1 = none ↔ lexer.ended = true := by
  cases hended : lexer.ended <;> simp [Lexer.use, next?, hended]

@[simp]
theorem length_useAll (lexer : Lexer) (uses : List LexerUse) :
    (lexer.useAll uses).1.length = uses.length := by
  induction uses generalizing lexer with
  | nil => rfl
  | cons use uses ih => rw [useAll, List.length_cons, ih, List.length_cons]

/-- What the use at an index yields is up to the lexer that the uses in front of it leave. -/
theorem getElem?_useAll {lexer : Lexer} {uses : List LexerUse} {index : Nat} {use : LexerUse}
    (huse : uses[index]? = some use) :
    (lexer.useAll uses).1[index]? = some ((lexer.useAll (uses.take index)).2.use use).1 := by
  induction uses generalizing lexer index with
  | nil => contradiction
  | cons first uses ih =>
      cases index with
      | zero =>
          obtain rfl := Option.some.inj huse
          rfl
      | succ index => exact ih huse

/-- A row of uses ends the sequence of tokens just if one of them gets the end of input as an
item. -/
theorem ended_useAll_iff (lexer : Lexer) (uses : List LexerUse) :
    (lexer.useAll uses).2.ended = true ↔
      lexer.ended = true ∨ ∃ index, EndsAt uses (lexer.useAll uses).1 index := by
  induction uses generalizing lexer with
  | nil => simp [useAll, EndsAt]
  | cons use uses ih =>
      have hfirst : (lexer.use use).2.ended = true ↔ lexer.ended = true ∨
          use = .next ∧ ∃ token, (lexer.use use).1 = some token ∧ token.kind = .eof := by
        rcases lexer.use_cases use with ⟨hnone, hsame, -⟩ | ⟨hsome, -, hended, -⟩
        · simp [hnone, hsame]
        · simp [hsome, hended]
      rw [← Nat.or_exists_add_one, ← or_assoc]
      exact (ih (lexer.use use).2).trans (or_congr_left (hfirst.trans (or_congr_right
        endsAt_zero.symm)))

/-- What is yielded are the tokens of the text in front of the lexer one by one, and then the end of
input for ever. -/
theorem eq_getD_of_reduceOption_useAll {lexer : Lexer} {uses : List LexerUse} {index : Nat}
    {token : Token} (hyielded : (lexer.useAll uses).1.reduceOption[index]? = some token) :
    token = (scanAll lexer.rest).getD index .endOfInput := by
  induction uses generalizing lexer index with
  | nil => contradiction
  | cons use uses ih =>
      rw [useAll] at hyielded
      rcases lexer.use_cases use with ⟨hnone, hsame, -⟩ | ⟨hsome, hrest, -⟩
      · rw [hnone, hsame] at hyielded
        exact ih hyielded
      · rw [hsome] at hyielded
        have hstream := lexer.supplies_scanAll index
        cases index with
        | zero =>
            rw [← Option.some.inj hyielded]
            exact hstream
        | succ index =>
            rw [ih hyielded, ← hstream, hrest, ← lexer.nextToken.2.supplies_scanAll]
            rfl

/-- A use that asks for a token is answered. -/
theorem exists_useAll_of_nextToken {lexer : Lexer} {uses : List LexerUse} {index : Nat}
    (huse : uses[index]? = some .nextToken) :
    ∃ token, (lexer.useAll uses).1[index]? = some (some token) :=
  ⟨(lexer.useAll (uses.take index)).2.nextToken.1, getElem?_useAll huse⟩

/-- What the first uses yield does not depend on those behind them. -/
theorem useAll_take (lexer : Lexer) (uses : List LexerUse) (count : Nat) :
    (lexer.useAll (uses.take count)).1 = (lexer.useAll uses).1.take count := by
  induction uses generalizing lexer count with
  | nil => simp [useAll]
  | cons use uses ih =>
      cases count with
      | zero => rfl
      | succ count =>
          rw [List.take_succ_cons, useAll, useAll, List.take_succ_cons]
          exact congrArg _ (ih (lexer.use use).2 count)

/-- An item is missing just if an earlier one was the end of input. -/
theorem useAll_eq_none_iff {lexer : Lexer} {uses : List LexerUse} {index : Nat}
    (hopen : lexer.ended = false) (huse : uses[index]? = some .next) :
    (lexer.useAll uses).1[index]? = some none ↔
      ∃ earlier < index, EndsAt uses (lexer.useAll uses).1 earlier := by
  have hbefore (earlier : Nat) :
      EndsAt (uses.take index) (lexer.useAll (uses.take index)).1 earlier ↔
        earlier < index ∧ EndsAt uses (lexer.useAll uses).1 earlier := by
    rw [useAll_take, EndsAt, EndsAt, List.getElem?_take, List.getElem?_take]
    by_cases hlt : earlier < index
    · simp only [hlt, ↓reduceIte, true_and]
    · simp only [hlt, ↓reduceIte, reduceCtorEq, false_and]
  rw [getElem?_useAll huse, Option.some_inj, use_next_eq_none_iff, ended_useAll_iff, hopen]
  simp only [hbefore, Bool.false_eq_true, false_or]

/-- Once the end of input was yielded, either way, there is no text left. -/
theorem rest_useAll_eq_nil {lexer : Lexer} {uses : List LexerUse}
    (hlast : lexer.rest = [] ∨
      ∃ token, some token ∈ (lexer.useAll uses).1 ∧ token.kind = .eof) :
    (lexer.useAll uses).2.rest = [] := by
  induction uses generalizing lexer with
  | nil => simpa [useAll] using hlast
  | cons use uses ih =>
      refine ih ?_
      rcases lexer.use_cases use with ⟨hnone, hsame, -⟩ | ⟨hsome, hrest, -⟩
      · rw [hsame]
        simpa [useAll, hnone, hsame] using hlast
      · rcases hlast with hnil | ⟨token, hmem, hkind⟩
        · rw [hrest, nextToken_of_rest_nil hnil]
          exact Or.inl hnil
        · rw [useAll, List.mem_cons, hsome, Option.some_inj] at hmem
          rcases hmem with rfl | hmem
          · exact Or.inl (hrest.trans (nextToken_rest_eq_nil hkind))
          · exact Or.inr ⟨token, hmem, hkind⟩

/-- Behind the end of input, answered either way, an item that is not missing is the end of input
again. -/
theorem useAll_eq_endOfInput {lexer : Lexer} {uses : List LexerUse} {index earlier : Nat}
    {token : Token} (huse : uses[index]? = some .next) (hearlier : earlier < index)
    (hyielded : (lexer.useAll uses).1[earlier]? = some (some token)) (hkind : token.kind = .eof)
    (hsome : (lexer.useAll uses).1[index]? ≠ some none) :
    (lexer.useAll uses).1[index]? = some (some .endOfInput) := by
  have hrest : (lexer.useAll (uses.take index)).2.rest = [] := by
    refine rest_useAll_eq_nil (Or.inr ⟨token, ?_, hkind⟩)
    rw [useAll_take]
    exact List.mem_of_getElem? (List.getElem?_take_of_lt hearlier ▸ hyielded)
  rw [getElem?_useAll huse] at hsome ⊢
  rcases use_cases (lexer.useAll (uses.take index)).2 .next with ⟨hnone, -⟩ | ⟨hnext, -⟩
  · exact absurd (congrArg some hnone) hsome
  · rw [hnext, nextToken_of_rest_nil hrest]

end Lexer

/-- Asking for tokens and asking for items of the sequence of tokens, in whatever order and with
copies made in between, share one stream: what is yielded is the stream of the source from its
start, nothing left out and nothing twice.  Asking for a token is always answered.  An item is
missing just if an earlier item was the end of input.  Where the end of input was answered only as a
token, the next item is the end of input once more, and behind that the items are missing. -/
theorem yields_share_stream (source : String) (uses : List LexerUse) :
    (yieldsOf source uses).length = uses.length ∧
    (∀ index token, (yieldsOf source uses).reduceOption[index]? = some token →
      token = streamAt source index) ∧
    (∀ index : Nat, uses[index]? = some .nextToken →
      ∃ token, (yieldsOf source uses)[index]? = some (some token)) ∧
    (∀ index : Nat, uses[index]? = some .next →
      ((yieldsOf source uses)[index]? = some none ↔
        ∃ earlier < index, EndsAt uses (yieldsOf source uses) earlier)) ∧
    ∀ (index earlier : Nat) (token : Token), earlier < index →
      (yieldsOf source uses)[earlier]? = some (some token) → token.kind = .eof →
      uses[index]? = some .next →
      (∀ between < index, ¬ EndsAt uses (yieldsOf source uses) between) →
      (yieldsOf source uses)[index]? = some (some .endOfInput) ∧
        ∀ later > index, uses[later]? = some .next →
          (yieldsOf source uses)[later]? = some none := by
  have hnone (index : Nat) (huse : uses[index]? = some .next) :
      (yieldsOf source uses)[index]? = some none ↔
        ∃ earlier < index, EndsAt uses (yieldsOf source uses) earlier :=
    Lexer.useAll_eq_none_iff rfl huse
  refine ⟨Lexer.length_useAll _ uses, fun index token hyielded => ?_,
    fun index huse => Lexer.exists_useAll_of_nextToken huse, hnone, ?_⟩
  · rw [streamAt_eq_getD]
    exact Lexer.eq_getD_of_reduceOption_useAll hyielded
  · intro index earlier token hearlier hyielded hkind huse hbetween
    have hsome : (yieldsOf source uses)[index]? ≠ some none := by
      rw [Ne, hnone index huse]
      rintro ⟨between, hlt, hends⟩
      exact hbetween between hlt hends
    have hlast : (yieldsOf source uses)[index]? = some (some .endOfInput) :=
      Lexer.useAll_eq_endOfInput huse hearlier hyielded hkind hsome
    refine ⟨hlast, fun later hlater hlateruse => ?_⟩
    exact (hnone later hlateruse).2 ⟨index, hlater, huse, _, hlast, rfl⟩

/-- The end of input is answered as a token and then once more as an item, behind which the items
are missing. -/
theorem yields_share_stream_end :
    yieldsOf "x" [.next, .nextToken, .next, .next] =
        [some ⟨.identifier, "x"⟩, some .endOfInput, some .endOfInput, none] ∧
      (∀ between < 2, ¬ EndsAt [.next, .nextToken, .next, .next]
        (yieldsOf "x" [.next, .nextToken, .next, .next]) between) ∧
      (yieldsOf "x" [.next, .nextToken, .next, .next])[2]? = some (some .endOfInput) ∧
      (yieldsOf "x" [.next, .nextToken, .next, .next])[3]? = some none ∧
      Token.endOfInput = streamAt "x" 2 := by
  have hyields : yieldsOf "x" [.next, .nextToken, .next, .next] =
      [some ⟨.identifier, "x"⟩, some .endOfInput, some .endOfInput, none] := by
    decide +kernel
  have hnever : ∀ between < 2, ¬ EndsAt [.next, .nextToken, .next, .next]
      (yieldsOf "x" [.next, .nextToken, .next, .next]) between := by
    rw [hyields]
    rintro between hlt ⟨huse, token, htoken, hkind⟩
    match between, hlt with
    | 0, _ =>
        obtain rfl := Option.some.inj (Option.some.inj htoken)
        contradiction
    | 1, _ => contradiction
  obtain ⟨-, hstream, -, -, hagain⟩ := yields_share_stream "x" [.next, .nextToken, .next, .next]
  obtain ⟨honce, hmissing⟩ :=
    hagain 2 1 .endOfInput (by decide) (by rw [hyields]; rfl) rfl rfl hnever
  exact ⟨hyields, hnever, honce, hmissing 3 (by decide) rfl,
    hstream 2 .endOfInput (by rw [hyields]; rfl)⟩

end ExprLang
