/-
The situation in which a program is read: the grammar of the language is in force, there is room for
so many more open expressions, and the tokens in front of the parser are known and spelled right.
Each move of a parser leads from one such situation to the next.
-/
import ExprLang.Proofs.Frame
import ExprLang.Proofs.Spelling

namespace ExprLang

namespace Parser

variable {σ : Type} [TokenSupply σ]

/-- The parser reads the language under a limit and can open so many more expressions, and from the
current token on it has just these tokens in front of it. -/
structure Reads (state : Parser σ) (limit room : Nat) (tokens : List Token) : Prop where
  grammar : state.grammar = .standard
  room : state.depth + room = limit
  limit : state.limit = limit
  spelled : ∀ token ∈ tokens, token.Spelled
  faces : state.Faces tokens

namespace Reads

variable {state : Parser σ} {limit room : Nat} {token : Token} {tokens rest : List Token}

theorem current_cons (hreads : state.Reads limit room (token :: tokens)) : state.current = token :=
  hreads.faces.current_cons

theorem spelled_cons (hreads : state.Reads limit room (token :: tokens)) : token.Spelled :=
  hreads.spelled token List.mem_cons_self

/-- The current token is the end of input exactly if no tokens are left. -/
theorem current_kind_eq_eof_iff (hreads : state.Reads limit room tokens) :
    state.current.kind = .eof ↔ tokens = [] := by
  constructor
  · intro heof
    cases tokens with
    | nil => rfl
    | cons token rest =>
        rw [hreads.current_cons] at heof
        exact absurd heof hreads.spelled_cons.kind_ne_eof
  · intro hnone
    have hcurrent := hreads.faces.current
    rw [hnone] at hcurrent
    rw [hcurrent]
    rfl

theorem exists_cons (hreads : state.Reads limit room tokens) (hkind : state.current.kind ≠ .eof) :
    ∃ rest, tokens = state.current :: rest :=
  hreads.faces.exists_cons hkind

/-- The current token comes first of those in front of a parser, be it the end of input. -/
theorem append_endOfInput (hreads : state.Reads limit room tokens) :
    tokens ++ [.endOfInput] = state.current :: (tokens ++ [Token.endOfInput]).tail := by
  have hcurrent := hreads.faces.current
  cases tokens with
  | nil => rw [hcurrent]; rfl
  | cons token rest => rw [hcurrent]; rfl

/-- A lookahead of a known kind is the next of the tokens. -/
theorem exists_peek {kind : TokenKind} (hreads : state.advance.Reads limit room tokens)
    (hpeek : state.peek.kind = kind) (hkind : kind ≠ .eof) : ∃ rest, tokens = state.peek :: rest :=
  hreads.exists_cons (by rwa [advance_current, hpeek])

theorem kind_ne_eof (hreads : state.Reads limit room (token :: tokens)) :
    state.current.kind ≠ .eof := by
  rw [hreads.current_cons]
  exact hreads.spelled_cons.kind_ne_eof

theorem advance (hreads : state.Reads limit room (token :: tokens)) :
    state.advance.Reads limit room tokens where
  grammar := hreads.grammar
  room := hreads.room
  limit := hreads.limit
  spelled later hlater := hreads.spelled later (List.mem_cons_of_mem token hlater)
  faces := hreads.faces.awaits_cons.advance

/-- Moving on leaves the tokens behind the current one.  At the end of input none are left. -/
theorem advance_tail (hreads : state.Reads limit room tokens) :
    state.advance.Reads limit room tokens.tail where
  grammar := hreads.grammar
  room := hreads.room
  limit := hreads.limit
  spelled later hlater := hreads.spelled later (List.mem_of_mem_tail hlater)
  faces := hreads.faces.awaits.advance

/-- The lookahead is the first of the tokens behind the current one. -/
theorem peek_eq (hreads : state.Reads limit room tokens) :
    state.peek = tokens.tail.headD .endOfInput :=
  hreads.faces.awaits.peek

/-- The current token is one of those in front of a parser, or the end of input. -/
theorem current_mem (hreads : state.Reads limit room tokens) :
    state.current ∈ tokens ++ [.endOfInput] := by
  rw [hreads.append_endOfInput]
  exact List.mem_cons_self

/-- So is the lookahead. -/
theorem peek_mem (hreads : state.Reads limit room tokens) :
    state.peek ∈ tokens ++ [.endOfInput] :=
  (List.mem_append.1 hreads.advance_tail.current_mem).elim
    (fun htail => List.mem_append_left _ (List.mem_of_mem_tail htail)) (List.mem_append_right _)

theorem record (hreads : state.Reads limit room tokens) (error : SyntaxError) :
    (state.record error).Reads limit room tokens :=
  ⟨hreads.grammar, hreads.room, hreads.limit, hreads.spelled, hreads.faces.congr rfl rfl rfl⟩

theorem depth_lt_limit
    (hreads : state.Reads limit (room + 1) tokens) : state.depth < state.limit := by
  have hroom := hreads.room
  rw [hreads.limit]
  omega

theorem depth_eq_limit (hreads : state.Reads limit 0 tokens) : state.depth = state.limit := by
  rw [hreads.limit]
  exact hreads.room

theorem enter_depth (hreads : state.Reads limit (room + 1) tokens) :
    state.enter.2.depth = state.depth + 1 := by
  simp only [Parser.enter, hreads.depth_lt_limit, ↓reduceIte]

/-- One more open expression takes one place of the room. -/
theorem enter
    (hreads : state.Reads limit (room + 1) tokens) : state.enter.2.Reads limit room tokens := by
  have hroom := hreads.room
  have hopen := hreads.depth_lt_limit
  simp only [Parser.enter, hopen, ↓reduceIte]
  refine ⟨hreads.grammar, ?_, hreads.limit, hreads.spelled, hreads.faces.congr rfl rfl rfl⟩
  dsimp only
  omega

/-- An expression that is closed gives its place back. -/
theorem leave {inside : Parser σ} (hreads : state.Reads limit (room + 1) tokens)
    (hinside : state.enter.2.Precedes inside) (hrest : inside.Reads limit room rest) :
    inside.leave.Reads limit (room + 1) rest := by
  have hdepth : inside.depth = state.depth + 1 := hinside.depth.trans hreads.enter_depth
  have hroom : inside.depth + room = limit := hrest.room
  refine ⟨hrest.grammar, ?_, hrest.limit, hrest.spelled, hrest.faces.congr rfl rfl rfl⟩
  show inside.depth - 1 + (room + 1) = limit
  omega

theorem leave_advance {inside : Parser σ} (hreads : state.Reads limit (room + 1) tokens)
    (hinside : state.enter.2.Precedes inside) (hbehind : inside.advance.Reads limit room rest) :
    inside.leave.advance.Reads limit (room + 1) rest :=
  hreads.leave (Enduring.trans hinside (Enduring.advance inside)) hbehind

end Reads

/-- A parser at the start of a source reads its tokens. -/
theorem reads_ofSource (source : String) (limit : Nat) :
    (ofSupply (Lexer.ofSource source) limit).Reads limit limit (scanAll source.toList) where
  grammar := rfl
  room := Nat.zero_add limit
  limit := rfl
  spelled _ := spelled_of_mem_scanAll
  faces := faces_ofSupply (Lexer.supplies_scanAll (.ofSource source)) limit

end Parser

end ExprLang
