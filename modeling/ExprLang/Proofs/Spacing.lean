/-
Reading undoes writing tokens down.  Tokens can be written one behind another with any blanks in
front of them, between them and behind them; they are read again from what is written, as long as
there are blanks between any two that would merge without.  Those are just the ones of which the
second begins with a character that joins the first.
-/
import ExprLang.Proofs.LongestMatch
import Mathlib.Data.List.Chain

namespace ExprLang

/-- With nothing between them two tokens would not be read as the two that they are: a word and what
begins with a letter, a digit or an underscore, a number and what begins with a digit, or an equals
sign or an exclamation mark and what begins with an equals sign. -/
def Token.Merges (left right : Token) : Prop :=
  (left.kind ∈ TokenKind.words ∧ ∃ c ∈ right.lexeme.toList.head?, isWordChar c = true) ∨
    (left.kind = .integer ∧ ∃ c ∈ right.lexeme.toList.head?, c.isDigit = true) ∨
    ((left.kind = .assign ∨ left.kind = .bang) ∧ right.lexeme.toList.head? = some '=')

/-- A token and the blanks that are written behind it. -/
structure Spaced where
  token : Token
  gap : List Char

namespace Spaced

def text (item : Spaced) : List Char :=
  item.token.lexeme.toList ++ item.gap

/-- Two neighbours may touch only if they do not merge. -/
def KeepsFrom (left right : Spaced) : Prop :=
  left.gap = [] → ¬ left.token.Merges right.token

end Spaced

/-- Tokens written down, with blanks in front of the first one. -/
def written (lead : List Char) (items : List Spaced) : String :=
  String.ofList (lead ++ items.flatMap Spaced.text)

/-- A text that is tiled is no shorter than that of the first token. -/
theorem Tiles.length_le {token : Token} {text : List Char} {tokens : List Token}
    (htiles : Tiles text (token :: tokens)) : token.lexeme.toList.length ≤ text.length := by
  cases htiles with
  | token hgap hlexeme hlater =>
      simp only [List.length_append]
      omega

namespace Token

theorem merges_iff {left right : Token} :
    left.Merges right ↔ ∃ c ∈ right.lexeme.toList.head?, left.joins c = true := by
  obtain ⟨kind, lexeme⟩ := left
  cases kind <;> simp [Merges, joins, TokenKind.words]

/-- No blank joins a token. -/
theorem joins_of_isBlank (token : Token) {c : Char} (hblank : isBlank c = true) :
    token.joins c = false := by
  obtain ⟨kind, lexeme⟩ := token
  rcases eq_of_isBlank hblank with rfl | rfl | rfl | rfl <;> cases kind <;> rfl

/-- The text of a token begins with a character that is no blank. -/
theorem Spelled.exists_cons {token : Token} (hspelled : token.Spelled) :
    ∃ c rest, token.lexeme.toList = c :: rest ∧ isBlank c = false := by
  have halone := hspelled.scanAll_lexeme
  cases hlexeme : token.lexeme.toList with
  | nil =>
      rw [hlexeme, scanAll_nil] at halone
      contradiction
  | cons c rest =>
      refine ⟨c, rest, rfl, ?_⟩
      rw [Bool.eq_false_iff]
      intro hblank
      -- Behind a blank there would be less text than the token has.
      rw [hlexeme, scanAll_of_blank hblank] at halone
      have hshorter := Tiles.length_le (halone ▸ tiles_scanAll rest)
      rw [hlexeme, List.length_cons] at hshorter
      omega

/-- A token is read from its text if what is behind does not join it, and not otherwise. -/
theorem Spelled.scanAll_append_iff {token : Token} (hspelled : token.Spelled) {more : List Char}
    {tokens : List Token} :
    scanAll (token.lexeme.toList ++ more) = token :: tokens ↔
      (∀ c ∈ more.head?, token.joins c = false) ∧ scanAll more = tokens := by
  constructor
  · intro hread
    obtain ⟨c, rest, hlexeme, hblank⟩ := hspelled.exists_cons
    have hscan := scan_append c (rest ++ more)
    have hjoins := joins_scan c (rest ++ more)
    rw [hlexeme, List.cons_append, scanAll_of_not_blank hblank, List.cons.injEq] at hread
    obtain ⟨hfirst, hlater⟩ := hread
    rw [hfirst, hlexeme, List.cons_append, List.cons.injEq] at hscan
    have hbehind : (scan c (rest ++ more)).2 = more := List.append_cancel_left hscan.2
    rw [hfirst, hbehind] at hjoins
    rw [hbehind] at hlater
    exact ⟨hjoins, hlater⟩
  · rintro ⟨hjoins, rfl⟩
    exact scanAll_lexeme_append hspelled hjoins

end Token

/-- What is written behind a token does not join it exactly if the token keeps from the next one. -/
theorem Spaced.keepsFrom_iff {item : Spaced} {rest : List Spaced} (hgap : IsGap item.gap)
    (hspelled : ∀ next ∈ rest, next.token.Spelled) :
    (∀ c ∈ (item.gap ++ rest.flatMap Spaced.text).head?, item.token.joins c = false) ↔
      ∀ next ∈ rest.head?, item.KeepsFrom next := by
  unfold KeepsFrom
  cases hblanks : item.gap with
  | cons c gap =>
      rw [hblanks] at hgap
      have hc := item.token.joins_of_isBlank (hgap.isBlank_of_mem List.mem_cons_self)
      simp [hc]
  | nil =>
      cases rest with
      | nil => simp
      | cons next later =>
          obtain ⟨c, behind, hlexeme, -⟩ := (hspelled next List.mem_cons_self).exists_cons
          simp [Spaced.text, Token.merges_iff, hlexeme]

theorem scanAll_text_iff {items : List Spaced} (hspelled : ∀ item ∈ items, item.token.Spelled)
    (hgaps : ∀ item ∈ items, IsGap item.gap) :
    scanAll (items.flatMap Spaced.text) = items.map Spaced.token ↔
      items.IsChain Spaced.KeepsFrom := by
  induction items with
  | nil => simp [scanAll_nil]
  | cons item rest ih =>
      have hgap := hgaps item List.mem_cons_self
      have hlater := fun next hnext => hspelled next (List.mem_cons_of_mem item hnext)
      have hrest := ih hlater fun next hnext => hgaps next (List.mem_cons_of_mem item hnext)
      rw [List.flatMap_cons, Spaced.text, List.append_assoc, List.map_cons, List.isChain_cons,
        (hspelled item List.mem_cons_self).scanAll_append_iff, Spaced.keepsFrom_iff hgap hlater,
        hgap.scanAll_append, hrest]

/-- Tokens that are written down with blanks in front and behind each of them are read again exactly
if there are blanks between all neighbours that merge. -/
theorem tokenize_written_iff {lead : List Char} {items : List Spaced} (hlead : IsGap lead)
    (hspelled : ∀ item ∈ items, item.token.Spelled) (hgaps : ∀ item ∈ items, IsGap item.gap) :
    tokenize (written lead items) = items.map Spaced.token ++ [.endOfInput] ↔
      items.IsChain Spaced.KeepsFrom := by
  rw [tokenize_eq_scanAll, written, String.toList_ofList, hlead.scanAll_append,
    List.append_left_inj, scanAll_text_iff hspelled hgaps]

/-- Two equals signs and a third one, and a number, a word and a character that is foreign to the
language, all of them touching where they may. -/
def touching : List Spaced :=
  [⟨⟨.equals, "=="⟩, []⟩, ⟨⟨.assign, "="⟩, [' ']⟩, ⟨⟨.equals, "=="⟩, []⟩, ⟨⟨.integer, "5"⟩, []⟩,
    ⟨⟨.identifier, "a"⟩, []⟩, ⟨⟨.illegal, "é"⟩, ['\n']⟩]

theorem tokenize_written_iff_touching :
    IsGap ['\t'] ∧ (∀ item ∈ touching, item.token.Spelled) ∧ (∀ item ∈ touching, IsGap item.gap) ∧
      written ['\t'] touching = "\t=== ==5aé\n" ∧
      tokenize (written ['\t'] touching) = touching.map Spaced.token ++ [.endOfInput] := by
  have hlead : IsGap ['\t'] := isGap_nil.cons rfl
  have hspelled : ∀ item ∈ touching, item.token.Spelled := by
    simp only [touching, List.forall_mem_cons]
    exact ⟨rfl, rfl, rfl, rfl, ⟨rfl, rfl⟩, ⟨'é', rfl, rfl⟩, List.forall_mem_nil _⟩
  have hgaps : ∀ item ∈ touching, IsGap item.gap := by
    simp only [touching, List.forall_mem_cons]
    exact ⟨isGap_nil, isGap_nil.cons rfl, isGap_nil, isGap_nil, isGap_nil, isGap_nil.cons rfl,
      List.forall_mem_nil _⟩
  have hchain : touching.IsChain Spaced.KeepsFrom := by
    have hforeign : isWordChar 'é' = false := rfl
    simp [touching, Spaced.KeepsFrom, Token.merges_iff, Token.joins, hforeign]
  exact ⟨hlead, hspelled, hgaps, rfl, (tokenize_written_iff hlead hspelled hgaps).2 hchain⟩

end ExprLang
