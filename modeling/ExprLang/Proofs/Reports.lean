/-
What reading a program reports.  A token is reported whenever one is pulled, so that the reports
tell how often that happens: once for every token of the source, and then a bounded number of times
for the end of input.  A parser moves on at the end of input only behind a statement, and there can
be as many statements around one another as expressions are open, and one more.  Besides tokens only
the errors are reported, as they are recorded, and last the end of the program.
-/
import ExprLang.Proofs.Invariant

namespace ExprLang

open ParseM

/-- The token that a report tells of. -/
def Event.token? : Event → Option Token
  | .pulled token => some token
  | _ => none

/-- The error that a report tells of. -/
def Event.error? : Event → Option SyntaxError
  | .recorded error => some error
  | _ => none

namespace TokenSupply

variable {σ : Type} [TokenSupply σ]

/-- What so many pulls leave of a supply. -/
def after (supply : σ) : Nat → σ
  | 0 => supply
  | count + 1 => (pull (after supply count)).2

/-- The first tokens that a supply hands out. -/
def firsts (supply : σ) (count : Nat) : List Token :=
  (List.range count).map (nth supply)

theorem nth_pull (supply : σ) (index : Nat) : nth (pull supply).2 index = nth supply (index + 1) :=
  rfl

theorem nth_after (supply : σ) (count index : Nat) :
    nth (after supply count) index = nth supply (count + index) := by
  induction count generalizing index with
  | zero => rw [after, Nat.zero_add]
  | succ count ih => rw [after, nth_pull, ih, Nat.add_right_comm, Nat.add_assoc]

/-- The token that is pulled behind so many others. -/
theorem pull_after (supply : σ) (count : Nat) : (pull (after supply count)).1 = nth supply count :=
  nth_after supply count 0

theorem firsts_succ (supply : σ) (count : Nat) :
    firsts supply (count + 1) = firsts supply count ++ [nth supply count] := by
  rw [firsts, firsts, List.range_succ, List.map_append, List.map_singleton]

/-- A supply of so many tokens, with the end of input behind them. -/
def EndsAt (supply : σ) (length : Nat) : Prop :=
  ∀ index, (nth supply index).kind = .eof ↔ length ≤ index

end TokenSupply

namespace Supplies

variable {σ : Type} [TokenSupply σ] {supply : σ} {tokens : List Token}

theorem endsAt (hsupply : Supplies supply tokens) (hproper : ∀ token ∈ tokens, token.kind ≠ .eof) :
    TokenSupply.EndsAt supply tokens.length := by
  intro index
  rw [hsupply index, List.getD_eq_getElem?_getD]
  by_cases hindex : index < tokens.length
  · rw [List.getElem?_eq_getElem hindex]
    exact iff_of_false (hproper _ (List.getElem_mem hindex)) (Nat.not_le.2 hindex)
  · rw [List.getElem?_eq_none (Nat.not_lt.1 hindex)]
    exact iff_of_true rfl (Nat.not_lt.1 hindex)

/-- What a supply hands out first are its tokens and then the end of input. -/
theorem firsts_eq (hsupply : Supplies supply tokens) (surplus : Nat) :
    TokenSupply.firsts supply (tokens.length + surplus) =
      tokens ++ List.replicate surplus .endOfInput := by
  refine List.ext_getElem (by simp [TokenSupply.firsts]) fun index hindex _ => ?_
  simp only [TokenSupply.firsts, List.getElem_map, List.getElem_range, List.getElem_append]
  rw [hsupply index, List.getD_eq_getElem?_getD]
  split
  · next hlt => rw [List.getElem?_eq_getElem hlt, Option.getD_some]
  · next hge => rw [List.getElem?_eq_none (Nat.not_lt.1 hge), List.getElem_replicate]; rfl

end Supplies

namespace Parser

variable {σ : Type} [TokenSupply σ]

/-- The parser has pulled the lookahead and all in front of it from a supply, its current token
being the one behind so many others, and has reported each pull. -/
structure At (supply : σ) (place : Nat) (state : Parser σ) : Prop where
  current : state.current = TokenSupply.nth supply place
  peek : state.peek = TokenSupply.nth supply (place + 1)
  rest : state.supply = TokenSupply.after supply (place + 2)
  pulled : state.log.toList.filterMap Event.token? = TokenSupply.firsts supply (place + 2)

theorem At.advance {supply : σ} {place : Nat} {state : Parser σ} (hat : state.At supply place) :
    state.advance.At supply (place + 1) where
  current := hat.peek
  peek := by rw [advance_peek, hat.rest, TokenSupply.pull_after]
  rest := by
    rw [advance_supply, hat.rest]
    rfl
  pulled := by
    have hpushed : state.advance.log.toList =
        state.log.toList ++ [.pulled (TokenSupply.pull state.supply).1] := Array.toList_push
    rw [hpushed, List.filterMap_append, hat.pulled, hat.rest, TokenSupply.pull_after,
      TokenSupply.firsts_succ supply (place + 2)]
    rfl

theorem At.record {supply : σ} {place : Nat} {state : Parser σ} (hat : state.At supply place)
    (error : SyntaxError) : (state.record error).At supply place where
  current := hat.current
  peek := hat.peek
  rest := hat.rest
  pulled := by
    have hpushed : (state.record error).log.toList = state.log.toList ++ [.recorded error] :=
      Array.toList_push
    rw [hpushed, List.filterMap_append, hat.pulled]
    exact List.append_nil _

theorem at_ofSupply (supply : σ) (limit : Nat) : (ofSupply supply limit).At supply 0 :=
  ⟨rfl, rfl, rfl, rfl⟩

/-- The parser reads the language from a supply of so many tokens and has room for so many more open
expressions.  It has moved on at most so often since the end of input became current. -/
structure Within (supply : σ) (length room surplus : Nat) (state : Parser σ) : Prop where
  grammar : state.grammar = .standard
  room : state.depth + room = state.limit
  ends : TokenSupply.EndsAt supply length
  place : ∃ place ≤ length + surplus, state.At supply place

namespace Within

variable {supply : σ} {length room surplus more : Nat} {state : Parser σ}

theorem mono (hstate : state.Within supply length room surplus) (hle : surplus ≤ more) :
    state.Within supply length room more := by
  obtain ⟨place, hplace, hat⟩ := hstate.place
  exact ⟨hstate.grammar, hstate.room, hstate.ends, place,
    Nat.le_trans hplace (Nat.add_le_add_left hle length), hat⟩

theorem record (hstate : state.Within supply length room surplus) (error : SyntaxError) :
    (state.record error).Within supply length room surplus := by
  obtain ⟨place, hplace, hat⟩ := hstate.place
  exact ⟨hstate.grammar, hstate.room, hstate.ends, place, hplace, hat.record error⟩

theorem advance (hstate : state.Within supply length room surplus) :
    state.advance.Within supply length room (surplus + 1) := by
  obtain ⟨place, hplace, hat⟩ := hstate.place
  exact ⟨hstate.grammar, hstate.room, hstate.ends, place + 1, Nat.succ_le_succ hplace,
    hat.advance⟩

/-- In front of the end of input a parser has not moved past it. -/
theorem of_current (hstate : state.Within supply length room surplus)
    (hcurrent : state.current.kind ≠ .eof) : state.Within supply length room more := by
  obtain ⟨place, hplace, hat⟩ := hstate.place
  rw [hat.current, Ne, hstate.ends place] at hcurrent
  exact ⟨hstate.grammar, hstate.room, hstate.ends, place, by omega, hat⟩

/-- Moving on from a token that is not the end of input is no move past it. -/
theorem advance_of_current (hstate : state.Within supply length room surplus)
    (hcurrent : state.current.kind ≠ .eof) : state.advance.Within supply length room more := by
  obtain ⟨place, hplace, hat⟩ := hstate.place
  rw [hat.current, Ne, hstate.ends place] at hcurrent
  exact ⟨hstate.grammar, hstate.room, hstate.ends, place + 1, by omega, hat.advance⟩

/-- Only the end of input is behind the end of input. -/
theorem current_kind_ne_eof (hstate : state.Within supply length room surplus)
    (hpeek : state.peek.kind ≠ .eof) : state.current.kind ≠ .eof := by
  obtain ⟨place, hplace, hat⟩ := hstate.place
  rw [hat.peek, Ne, hstate.ends (place + 1)] at hpeek
  rw [hat.current, Ne, hstate.ends place]
  omega

theorem enter (hstate : state.Within supply length (room + 1) surplus) :
    state.enter.2.Within supply length room surplus := by
  have hroom := hstate.room
  have hopen : state.depth < state.limit := by omega
  obtain ⟨place, hplace, hat⟩ := hstate.place
  simp only [Parser.enter, hopen, ↓reduceIte]
  refine ⟨hstate.grammar, ?_, hstate.ends, place, hplace, hat.current, hat.peek, hat.rest,
    hat.pulled⟩
  dsimp only
  omega

theorem leave {inside : Parser σ} (hstate : state.Within supply length (room + 1) surplus)
    (hinside : state.enter.2.Precedes inside)
    (hafter : inside.Within supply length room surplus) :
    inside.leave.Within supply length (room + 1) surplus := by
  have hbefore := hstate.enter.room
  have hroom := hafter.room
  have hdepth : 0 < inside.depth := by
    rw [hinside.depth]
    have houter := hstate.room
    have hopen : state.depth < state.limit := by omega
    simp only [Parser.enter, hopen, ↓reduceIte]
    omega
  obtain ⟨place, hplace, hat⟩ := hafter.place
  refine ⟨hafter.grammar, ?_, hafter.ends, place, hplace, hat.current, hat.peek, hat.rest,
    hat.pulled⟩
  show inside.depth - 1 + (room + 1) = inside.limit
  omega

end Within

end Parser

/-- An action keeps to a bound on how often the parser moves on past the end of input, whether or
not it answers. -/
def StaysWithin {σ α : Type} [TokenSupply σ] (action : ParseM σ α) (state : Parser σ) (supply : σ)
    (length room surplus : Nat) : Prop :=
  Ensures (fun _ => False) action state (fun _ after => after.Within supply length room surplus)
    fun after => after.Within supply length room surplus

/-- An expression moves on past the end of input no more often than expressions can still be
opened. -/
def ExpressionsStayWithin {σ : Type} [TokenSupply σ] (supply : σ) (length room : Nat) : Prop :=
  ∀ {power : Power} {state : Parser σ}, state.Within supply length room room →
    StaysWithin (expression power) state supply length room room

/-- While a program is read, each block moves on past the end of input at most once more than what
is read inside it. -/
def Invariant.within {σ : Type} [TokenSupply σ] (supply : σ) (length : Nat) : Invariant σ where
  ready room state := state.Within supply length room room
  during room state := state.Within supply length room (room + 1)
  grammar hstate := hstate.grammar
  current hstate := hstate.current_kind_ne_eof
  weaken hstate := hstate.mono (Nat.le_succ _)
  record_ready hstate _ := hstate.record _
  record hstate _ := hstate.record _
  move hstate := hstate.advance_of_current
  pass hstate := hstate.advance
  resume hstate := hstate.advance.of_current
  full hstate hopen := absurd hstate.room (Nat.ne_of_lt hopen)
  refuse hstate _ := hstate.record _
  enter hstate _ := hstate.enter
  leave hstate := hstate.leave

/-- One round of reading statements: a statement and the advance behind it. -/
theorem StaysWithin.statement_advance {σ : Type} [TokenSupply σ] {supply : σ}
    {length room surplus : Nat} {state : Parser σ}
    (hinner : ExpressionsStayWithin supply length room)
    (hstate : state.Within supply length room surplus) (hcurrent : state.current.kind ≠ .eof) :
    Ensures (fun _ => False) (Rule.statement expression) state
      (fun _ after => after.advance.Within supply length room (room + 1))
      fun after => after.advance.Within supply length room (room + 1) :=
  Ensures.mono (Invariant.statement (I := .within supply length) hinner
    (hstate.of_current hcurrent) hcurrent)
    (fun _ _ hafter => hafter.advance) fun _ hafter => hafter.advance

/-- Each block takes one of the places for open expressions. -/
theorem expressionsStayWithin {σ : Type} [TokenSupply σ] (supply : σ) (length room : Nat) :
    ExpressionsStayWithin supply length room :=
  (Invariant.within supply length).keptByExpressions room

/-- Nothing has been reported but the tokens that were pulled and the errors that were recorded,
these as they stand in the list of errors. -/
structure Parser.Reported {σ : Type} (state : Parser σ) : Prop where
  errors : state.log.toList.filterMap Event.error? = state.errors.toList
  only : ∀ event ∈ state.log.toList, event.token?.isSome ∨ event.error?.isSome

/-- One more report, and one more error if it tells of one. -/
theorem Parser.Reported.push {σ : Type} {state other : Parser σ} {event : Event}
    (hreported : state.Reported) (hevent : event.token?.isSome ∨ event.error?.isSome)
    (hlog : other.log = state.log.push event)
    (herrors : other.errors.toList = state.errors.toList ++ event.error?.toList) :
    other.Reported where
  errors := by
    rw [hlog, Array.toList_push, List.filterMap_append, hreported.errors, herrors]
    cases event <;> rfl
  only := by
    intro later hlater
    rw [hlog, Array.toList_push, List.mem_append, List.mem_singleton] at hlater
    rcases hlater with hlater | rfl
    · exact hreported.only later hlater
    · exact hevent

instance {σ : Type} [TokenSupply σ] : Irrevocable (@Parser.Reported σ) where
  advance hreported := hreported.push (Or.inl rfl) rfl (List.append_nil _).symm
  record error hreported := hreported.push (Or.inr rfl) rfl Array.toList_push
  stall hreported := ⟨hreported.errors, hreported.only⟩
  enter {state} hreported := by
    rw [Parser.enter]
    split
    · exact ⟨hreported.errors, hreported.only⟩
    · exact hreported.push (Or.inr rfl) rfl Array.toList_push
  leave hreported := ⟨hreported.errors, hreported.only⟩

/-- A source is read by pulling each of its tokens once, in order, and then the end of input at
least twice and at most three times more often than expressions may be open; no token is pulled
besides.  Every pull is reported.  Between these reports stand those of the errors, just as they are
answered, and behind all of them that of the end of the program, with the numbers of statements and
errors that are answered. -/
theorem parse_reports (source : String) :
    ∃ (tokens : List Token) (surplus : Nat) (events : List Event),
      tokenize source = tokens ++ [.endOfInput] ∧ (∀ token ∈ tokens, token.kind ≠ .eof) ∧
      2 ≤ surplus ∧ surplus ≤ maxNesting + 3 ∧
      parseReports source = .entered .parse source.utf8ByteSize :: (events ++
        [.finished (parse source).1.statements.length (parse source).2.length]) ∧
      (∀ event ∈ events, event.token?.isSome ∨ event.error?.isSome) ∧
      events.filterMap Event.token? = tokens ++ List.replicate surplus .endOfInput ∧
      events.filterMap Event.error? = (parse source).2 ∧
      (parseSupply (Lexer.ofSource source) maxNesting).2.supply =
        TokenSupply.after (Lexer.ofSource source) (tokens.length + surplus) := by
  have hsupply : Supplies (Lexer.ofSource source) (scanAll source.toList) :=
    Lexer.supplies_scanAll (.ofSource source)
  have hproper : ∀ token ∈ scanAll source.toList, token.kind ≠ .eof :=
    fun _ htoken => (spelled_of_mem_scanAll htoken).kind_ne_eof
  have hstart : (Parser.ofSupply (Lexer.ofSource source) maxNesting).Within (.ofSource source)
      (scanAll source.toList).length maxNesting (maxNesting + 1) :=
    ⟨rfl, Nat.zero_add _, hsupply.endsAt hproper, 0, Nat.zero_le _, Parser.at_ofSupply _ _⟩
  have hreported : (Rule.statements expression
      (Parser.ofSupply (Lexer.ofSource source) maxNesting)).2.Reported :=
    Keeps.statements (R := Loses Parser.Reported) expression _
      ⟨rfl, by simp [Parser.ofSupply, Parser.advance, Event.token?]⟩
  obtain ⟨after, event, hfinal, hafter⟩ := Ensures.parseProgram
    (fun after => after.Within (Lexer.ofSource source) _ maxNesting (maxNesting + 1)) hstart
    fun _ hcurrent hstate =>
      StaysWithin.statement_advance (expressionsStayWithin _ _ _) hstate hcurrent
  obtain ⟨heof, hwithin⟩ := hafter.resolve_left id
  obtain ⟨place, hplace, hat⟩ := hwithin.place
  rw [hat.current, hwithin.ends place] at heof
  have hlog : (Rule.statements expression
      (Parser.ofSupply (Lexer.ofSource source) maxNesting)).2.log = after.log :=
    (Array.push_eq_push.1 (congrArg Parser.log hfinal)).2
  obtain ⟨surplus, rfl⟩ := Nat.exists_eq_add_of_le heof
  refine ⟨scanAll source.toList, surplus + 2,
    (Rule.statements expression (Parser.ofSupply (Lexer.ofSource source) maxNesting)).2.log.toList,
    tokenize_eq_scanAll source, hproper, by omega, by omega, ?_, hreported.only, ?_,
    hreported.errors, ?_⟩
  · exact congrArg (Event.entered .parse source.utf8ByteSize :: ·) Array.toList_push
  · rw [hlog, hat.pulled, Nat.add_assoc, hsupply.firsts_eq]
  · rw [← Nat.add_assoc, ← hat.rest, parseSupply, hfinal]

/-- A return that is cut short moves on past the end of input, and so do the block around it and the
program. -/
example : (parseReports "fn() \x7b return").filterMap Event.token? =
    tokenize "fn() \x7b return" ++ List.replicate 3 .endOfInput := by
  decide +kernel

end ExprLang
