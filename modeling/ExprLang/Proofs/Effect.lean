/-
What an action on a parser brings about, errors or not: something that holds of its answer and the
parser behind it, or something that holds of the parser where it gave up.  Either may be replaced by
a condition that no later move takes back.  The rules below derive the outcome of a row of actions
from those of its parts; a repetition keeps an invariant, and it ends because each round leaves
fewer tokens ahead.
-/
import ExprLang.Proofs.Precedence

namespace ExprLang

variable {σ α β : Type} [TokenSupply σ]

namespace Parser

/-- Moving on from the later parser leaves fewer tokens ahead of it than the earlier one had, unless
the earlier one was at the end of input already. -/
structure Nears (earlier later : Parser σ) : Prop where
  ahead : later.ahead ≤ earlier.ahead
  reached : earlier.current.kind ≠ .eof → later.current.kind = .eof → later.ahead < earlier.ahead

instance : Lasting (@Nears σ _) where
  refl state := ⟨Nat.le_refl _, fun hopen hend => absurd hend hopen⟩
  trans {first second third} hfirst hsecond := by
    refine ⟨Nat.le_trans hsecond.ahead hfirst.ahead, fun hopen hend => ?_⟩
    by_cases hmiddle : second.current.kind = .eof
    · exact Nat.lt_of_le_of_lt hsecond.ahead (hfirst.reached hopen hmiddle)
    · exact Nat.lt_of_lt_of_le (hsecond.reached hmiddle hend) hfirst.ahead
  advance state := ⟨ahead_advance_le state, fun hopen _ => ahead_advance_lt hopen⟩
  record state error := ⟨Nat.le_refl _, fun hopen hend => absurd hend hopen⟩
  stall state := ⟨Nat.le_refl _, fun hopen hend => absurd hend hopen⟩
  nested {state inside} hroom hinside := by
    simp only [enter, hroom, ↓reduceIte] at hinside
    exact ⟨hinside.ahead, hinside.reached⟩

theorem Nears.ahead_advance_lt {earlier later : Parser σ} (hnears : earlier.Nears later)
    (hopen : earlier.current.kind ≠ .eof) : later.advance.ahead < earlier.ahead := by
  by_cases hend : later.current.kind = .eof
  · exact Nat.lt_of_le_of_lt (ahead_advance_le later) (hnears.reached hopen hend)
  · exact Nat.lt_of_lt_of_le (Parser.ahead_advance_lt hend) hnears.ahead

end Parser

/-- A condition on a parser that no move takes back. -/
class Irrevocable (lost : Parser σ → Prop) : Prop where
  advance {state : Parser σ} : lost state → lost state.advance
  record {state : Parser σ} (error : SyntaxError) : lost state → lost (state.record error)
  stall {state : Parser σ} : lost state → lost { state with stalled := true }
  enter {state : Parser σ} : lost state → lost state.enter.2
  leave {state : Parser σ} : lost state → lost state.leave

/-- Nothing is lost, and so nothing has to be taken back. -/
instance : Irrevocable (fun _ : Parser σ => False) where
  advance := id
  record _ := id
  stall := id
  enter := id
  leave := id

/-- What is lost in the earlier parser is lost in the later one. -/
def Loses (lost : Parser σ → Prop) (earlier later : Parser σ) : Prop :=
  lost earlier → lost later

instance {lost : Parser σ → Prop} [Irrevocable lost] : Lasting (Loses lost) where
  refl _ := id
  trans hfirst hsecond hlost := hsecond (hfirst hlost)
  advance _ := Irrevocable.advance
  record _ error := Irrevocable.record error
  stall _ := Irrevocable.stall
  nested _ hinside hlost := Irrevocable.leave (hinside (Irrevocable.enter hlost))

/-- Where nothing is lost nothing has to be kept. -/
instance (action : ParseM σ α) : Keeps (Loses fun _ : Parser σ => False) action :=
  ⟨fun _ => id⟩

/-- From a parser, an action answers and `answered` holds of the answer and the parser behind it, or
it gives up and `gaveUp` holds of the parser behind it, or else all is lost. -/
def Ensures (lost : Parser σ → Prop) (action : ParseM σ α) (state : Parser σ)
    (answered : α → Parser σ → Prop) (gaveUp : Parser σ → Prop) : Prop :=
  lost (action state).2 ∨
    match action state with
    | (some value, after) => answered value after
    | (none, after) => gaveUp after

namespace Ensures

open ParseM

variable {lost : Parser σ → Prop} {action : ParseM σ α} {next : α → ParseM σ β} {state : Parser σ}
  {middle answered : α → Parser σ → Prop} {final : β → Parser σ → Prop}
  {stopped gaveUp : Parser σ → Prop}

omit [TokenSupply σ] in
theorem mono (haction : Ensures lost action state middle stopped)
    (hanswer : ∀ value after, middle value after → answered value after)
    (hstop : ∀ after, stopped after → gaveUp after) :
    Ensures lost action state answered gaveUp := by
  rcases haction with hlost | haction
  · exact Or.inl hlost
  · refine Or.inr ?_
    rcases hresult : action state with ⟨_ | value, after⟩ <;> rw [hresult] at haction
    · exact hstop after haction
    · exact hanswer value after haction

omit [TokenSupply σ] in
/-- The outcome where an action gives up, seen as less. -/
theorem weaken (haction : Ensures lost action state answered stopped)
    (hstop : ∀ after, stopped after → gaveUp after) :
    Ensures lost action state answered gaveUp :=
  haction.mono (fun _ _ hanswer => hanswer) hstop

omit [TokenSupply σ] in
theorem pure {value : α} (hanswer : answered value state) :
    Ensures lost (pure value) state answered gaveUp :=
  Or.inr hanswer

omit [TokenSupply σ] in
theorem answer {result : Option α} (hsome : ∀ value, result = some value → answered value state)
    (hnone : result = none → gaveUp state) :
    Ensures lost (answer result) state answered gaveUp := by
  cases result with
  | none => exact Or.inr (hnone rfl)
  | some value => exact Or.inr (hsome value rfl)

omit [TokenSupply σ] in
theorem fail {error : SyntaxError} (hstop : gaveUp (state.record error)) :
    Ensures lost (fail error : ParseM σ α) state answered gaveUp :=
  Or.inr hstop

omit [TokenSupply σ] in
theorem inspect_bind {view : Parser σ → α}
    (hnext : Ensures lost (next (view state)) state final gaveUp) :
    Ensures lost (inspect view >>= next) state final gaveUp :=
  hnext

theorem advance_bind {next : Unit → ParseM σ β}
    (hnext : Ensures lost (next ()) state.advance final gaveUp) :
    Ensures lost (advance >>= next) state final gaveUp :=
  hnext

/-- Outcome of a token that has to come next. -/
theorem expect_bind {kind : TokenKind} {next : Unit → ParseM σ β}
    (hnext : state.peek.kind = kind → Ensures lost (next ()) state.advance final gaveUp)
    (hmissing : state.peek.kind ≠ kind →
      lost (state.record (.unexpectedToken kind state.peek.kind)) ∨
        gaveUp (state.record (.unexpectedToken kind state.peek.kind))) :
    Ensures lost (expect kind >>= next) state final gaveUp := by
  by_cases hkind : state.peek.kind = kind
  · have hexpect : expect kind state = (some (), state.advance) := by
      simp [expect, hkind]
    have hlast := hnext hkind
    rwa [Ensures, bind_of_some hexpect]
  · have hexpect : expect kind state =
        (none, state.record (.unexpectedToken kind state.peek.kind)) := by
      simp [expect, hkind]
    rw [Ensures, bind_of_none hexpect]
    exact hmissing hkind

omit [TokenSupply σ] in
/-- The outcome of one action after another.  Nothing follows an action that gave up. -/
theorem bind [∀ value, Keeps (Loses lost) (next value)]
    (haction : Ensures lost action state middle gaveUp)
    (hnext : ∀ value after, middle value after → Ensures lost (next value) after final gaveUp) :
    Ensures lost (action >>= next) state final gaveUp := by
  rcases hresult : action state with ⟨_ | value, after⟩
  · rw [Ensures, hresult] at haction
    rwa [Ensures, bind_of_none hresult]
  · rw [Ensures, hresult] at haction
    rcases haction with hlost | hmiddle
    · rw [Ensures, bind_of_some hresult]
      exact Or.inl (Keeps.after (Loses lost) (next value) after hlost)
    · have hlast := hnext value after hmiddle
      rwa [Ensures, bind_of_some hresult]

omit [TokenSupply σ] in
/-- The outcome of an action whose answer is only made into another one. -/
theorem bind_pure {result : α → β} {during : Parser σ → Prop}
    (haction : Ensures lost action state (fun _ after => during after) gaveUp) :
    Ensures lost (action >>= fun value => Pure.pure (result value)) state
      (fun _ after => during after) gaveUp := by
  rcases hresult : action state with ⟨_ | value, after⟩
  · rw [Ensures, hresult] at haction
    rwa [Ensures, bind_of_none hresult]
  · rw [Ensures, hresult] at haction
    rwa [Ensures, bind_of_some hresult]

omit [TokenSupply σ] in
/-- The outcome of an action that is carried on from even where it gives up: it answers in any
case. -/
theorem attempt (haction : Ensures lost action state middle stopped) :
    Ensures lost (attempt action) state
      (fun result after => match result with
        | some value => middle value after
        | none => stopped after) fun _ => False := by
  rcases hresult : action state with ⟨_ | value, after⟩ <;>
    (rw [Ensures, hresult] at haction; rw [Ensures, attempt_apply, hresult]; exact haction)

omit [TokenSupply σ] in
theorem attempt_bind {next : Option α → ParseM σ β} [∀ value, Keeps (Loses lost) (next value)]
    (haction : Ensures lost action state middle stopped)
    (hnext : ∀ value after, middle value after →
      Ensures lost (next (some value)) after final gaveUp)
    (hstop : ∀ after, stopped after → Ensures lost (next none) after final gaveUp) :
    Ensures lost (ParseM.attempt action >>= next) state final gaveUp := by
  refine bind (haction.attempt.weaken fun _ hnever => hnever.elim) ?_
  rintro (_ | value) after hmiddle
  · exact hstop after hmiddle
  · exact hnext value after hmiddle

omit [TokenSupply σ] in
/-- What holds behind every action can be added to its outcome. -/
theorem kept (R : Parser σ → Parser σ → Prop) [Keeps R action]
    (haction : Ensures lost action state answered gaveUp) :
    Ensures lost action state (fun value after => R state after ∧ answered value after)
      fun after => R state after ∧ gaveUp after := by
  have hkept := Keeps.after R action state
  rcases haction with hlost | haction
  · exact Or.inl hlost
  · refine Or.inr ?_
    rcases hresult : action state with ⟨_ | value, after⟩ <;>
      (rw [hresult] at haction hkept; exact ⟨hkept, haction⟩)

theorem precedes [Keeps Parser.Precedes action]
    (haction : Ensures lost action state answered gaveUp) :
    Ensures lost action state (fun value after => state.Precedes after ∧ answered value after)
      fun after => state.Precedes after ∧ gaveUp after :=
  haction.kept Parser.Precedes

variable [Irrevocable lost]

/-- Outcome of one more open expression. -/
theorem nested
    (hroom : state.depth < state.limit →
      Ensures lost action state.enter.2 (fun value inside => answered value inside.leave)
        fun inside => gaveUp inside.leave)
    (hfull : ¬ state.depth < state.limit →
      lost (state.record (.nestingTooDeep state.limit)) ∨
        gaveUp (state.record (.nestingTooDeep state.limit))) :
    Ensures lost (nested action) state answered gaveUp := by
  by_cases hopen : state.depth < state.limit
  · have hinside := hroom hopen
    have henter : state.enter = (true, state.enter.2) := by
      simp only [Parser.enter, hopen, ↓reduceIte]
    rcases hresult : action state.enter.2 with ⟨_ | value, inside⟩ <;>
      (rw [Ensures, hresult] at hinside
       rw [Ensures, ParseM.nested, henter]
       dsimp only
       rw [hresult]
       exact hinside.imp Irrevocable.leave id)
  · have henter : state.enter = (false, state.record (.nestingTooDeep state.limit)) := by
      simp only [Parser.enter, hopen, ↓reduceIte]
    rw [Ensures, ParseM.nested, henter]
    exact hfull hopen

omit [Irrevocable lost] in
/-- An action that begins with an advance leaves fewer tokens ahead. -/
theorem ahead_advance_bind_lt {next : Unit → ParseM σ α} [Keeps Parser.Precedes (next ())]
    (hcurrent : state.current.kind ≠ .eof) : ((advance >>= next) state).2.ahead < state.ahead := by
  have hlater := Keeps.after Parser.Precedes (next ()) state.advance
  exact Nat.lt_of_le_of_lt hlater.ahead (Parser.ahead_advance_lt hcurrent)

/-- A repetition that improves an answer.  What holds of the answer and the parser is kept from step
to step; the repetition ends where its condition fails, or it is given up. -/
theorem improveWhile_ends {more : Parser σ → Bool} {step : α → ParseM σ α} {start : α}
    [∀ value, Keeps (Loses lost) (step value)] {ended : α → Parser σ → Prop}
    (during : α → Parser σ → Prop) (hduring : during start state)
    (hstep : ∀ value state, more state = true → during value state →
      Ensures lost (step value) state during gaveUp)
    (hended : ∀ value state, more state = false → during value state → ended value state)
    (hstalled : ∀ {value better : α} {state after : Parser σ}, more state = true →
      during value state → step value state = (some better, after) →
      ¬ after.ahead < state.ahead → during better after →
      ended better { after with stalled := true }) :
    Ensures lost (improveWhile more step start) state ended gaveUp := by
  fun_induction ParseM.improveWhile more step start state with
  | case1 start state hmore after hresult =>
      have htaken := hstep start state hmore hduring
      rw [Ensures, hresult] at htaken
      rwa [Ensures, improveWhile_of_none hmore hresult]
  | case2 start state hmore better after hresult hless ih =>
      have htaken := hstep start state hmore hduring
      rw [Ensures, hresult] at htaken
      rw [Ensures, improveWhile_of_lt hmore hresult hless]
      rcases htaken with hlost | hafter
      · exact Or.inl (Keeps.after (Loses lost) (ParseM.improveWhile more step better) after hlost)
      · exact ih hafter
  | case3 start state hmore better after hresult hless =>
      have htaken := hstep start state hmore hduring
      rw [Ensures, hresult] at htaken
      rw [Ensures, improveWhile_of_not_lt hmore hresult hless]
      exact htaken.imp Irrevocable.stall (hstalled hmore hduring hresult hless)
  | case4 start state hmore =>
      rw [Bool.not_eq_true] at hmore
      rw [Ensures, improveWhile_of_not hmore]
      exact Or.inr (hended start state hmore hduring)

/-- A repetition by steps that each leave fewer tokens ahead is not given up. -/
theorem improveWhile_answer {more : Parser σ → Bool} {step : α → ParseM σ α} {start : α}
    [∀ value, Keeps (Loses lost) (step value)] (during : α → Parser σ → Prop)
    (hduring : during start state)
    (hstep : ∀ value state, more state = true → during value state →
      (step value state).2.ahead < state.ahead ∧
        Ensures lost (step value) state during gaveUp) :
    Ensures lost (improveWhile more step start) state
      (fun value after => more after = false ∧ during value after) gaveUp := by
  refine improveWhile_ends during hduring (fun value state hmore hkept =>
    (hstep value state hmore hkept).2) (fun _ _ => And.intro) ?_
  intro value better state after hmore hkept hresult hless
  have hahead := (hstep value state hmore hkept).1
  rw [hresult] at hahead
  exact absurd hahead hless

/-- What holds of the answer and the parser, whether or not the parser has stalled, is kept by a
repetition even where it is given up. -/
theorem improveWhile_kept {more : Parser σ → Bool} {step : α → ParseM σ α} {start : α}
    [∀ value, Keeps (Loses lost) (step value)] (during : α → Parser σ → Prop)
    (hduring : during start state)
    (hstall : ∀ value state, during value state → during value { state with stalled := true })
    (hstep : ∀ value state, more state = true → during value state →
      Ensures lost (step value) state during gaveUp) :
    Ensures lost (improveWhile more step start) state during gaveUp :=
  improveWhile_ends during hduring hstep (fun _ _ _ => id) fun _ _ _ _ => hstall _ _

/-- A repetition that runs an action again and again, with an advance behind each run, and stops at
the end of input at the latest.  What holds of the answers so far and the parser is kept from run to
run. -/
theorem answersWhile_answers (more : Parser σ → Bool) (action : ParseM σ α)
    [Keeps (Loses lost) action] [Keeps Parser.Nears action] (during : List α → Parser σ → Prop)
    (found : List α) (hduring : during found state)
    (hopen : ∀ state, more state = true → state.current.kind ≠ .eof)
    (hstep : ∀ found state, more state = true → during found state →
      Ensures lost action state (fun value after => during (found ++ [value]) after.advance)
        fun after => during found after.advance) :
    lost (answersWhile more action state).2 ∨
      more (answersWhile more action state).2 = false ∧
        during (found ++ (answersWhile more action state).1)
          (answersWhile more action state).2 := by
  induction hbound : state.ahead using Nat.strongRecOn generalizing state found with
  | ind bound ih =>
      subst hbound
      cases hmore : more state with
      | false =>
          rw [answersWhile_of_not hmore, List.append_nil]
          exact Or.inr ⟨hmore, hduring⟩
      | true =>
          have htaken := hstep found state hmore hduring
          have hnears := Keeps.after Parser.Nears action state
          rcases hresult : action state with ⟨result, behind⟩
          rw [Ensures, hresult] at htaken
          rw [hresult] at hnears
          have hless := hnears.ahead_advance_lt (hopen state hmore)
          rw [answersWhile_of_lt hmore hresult hless]
          rcases htaken with hlost | hbehind
          · have hkept := Keeps.answersWhile (R := Loses lost) more action behind.advance
            exact Or.inl (hkept (Irrevocable.advance hlost))
          · cases result with
            | none => exact ih _ hless found hbehind rfl
            | some value =>
                have hrest := ih _ hless (found ++ [value]) hbehind rfl
                rwa [List.append_assoc] at hrest

theorem answersWhile (more : Parser σ → Bool) (action : ParseM σ α) [Keeps (Loses lost) action]
    [Keeps Parser.Nears action] (during : Parser σ → Prop) (hduring : during state)
    (hopen : ∀ state, more state = true → state.current.kind ≠ .eof)
    (hstep : ∀ state, more state = true → during state →
      Ensures lost action state (fun _ after => during after.advance)
        fun after => during after.advance) :
    lost (answersWhile more action state).2 ∨
      more (answersWhile more action state).2 = false ∧
        during (answersWhile more action state).2 :=
  answersWhile_answers more action (fun _ => during) [] hduring hopen fun _ => hstep

/-- Outcome of parts with commas between them, from that of each part.  What holds of the parts so
far and the parser is kept from part to part, up to what has to close the list. -/
theorem listOf {part : ParseM σ α} [Keeps (Loses lost) part] [Keeps Parser.Precedes part]
    {answered : List α → Parser σ → Prop} (during : List α → Parser σ → Prop)
    (hempty : state.peek.kind = .closeParen → answered [] state.advance)
    (hfirst : state.peek.kind ≠ .closeParen →
      Ensures lost part state (fun value => during [value]) gaveUp)
    (hnext : ∀ found (state : Parser σ), state.peek.kind = .comma → during found state →
      state.current.kind ≠ .eof ∧
        Ensures lost part state.advance (fun value => during (found ++ [value])) gaveUp)
    (hclosing : ∀ found (state : Parser σ), state.peek.kind ≠ .comma → during found state →
      Ensures lost (do expect .closeParen; Pure.pure found) state answered gaveUp) :
    Ensures lost (Rule.listOf part) state answered gaveUp := by
  rw [Rule.listOf]
  apply inspect_bind
  by_cases hpeek : state.peekIs .closeParen = true
  · rw [if_pos hpeek]
    apply advance_bind
    exact pure (hempty (Parser.peekIs_iff.1 hpeek))
  · rw [if_neg hpeek]
    refine bind (hfirst (mt Parser.peekIs_iff.2 hpeek)) fun first after hafter => ?_
    refine bind (improveWhile_answer during hafter ?_) fun found last hlast => ?_
    -- A round moves on from a comma, and what lies between commas does not go back.
    · intro found state hcomma hduring
      obtain ⟨hcurrent, hpart⟩ := hnext found state (Parser.peekIs_iff.1 hcomma) hduring
      refine ⟨ahead_advance_bind_lt hcurrent, ?_⟩
      apply advance_bind
      exact bind hpart fun value after hvalue => pure hvalue
    · exact hclosing found last (by simpa [Parser.peekIs] using hlast.1) hlast.2

/-- Outcome of absorbing operators, from that of each operator that goes on with an expression. -/
theorem absorb_answer {inner : Power → ParseM σ Expr} [∀ power, Keeps (Loses lost) (inner power)]
    [∀ power, Keeps Parser.Precedes (inner power)] {power : Power} {left : Expr}
    (during : Expr → Parser σ → Prop) (hduring : during left state)
    (hgrammar : ∀ left state, during left state → state.grammar = .standard)
    (hcurrent : ∀ left state, during left state → state.peek.kind ≠ .eof →
      state.current.kind ≠ .eof)
    (hstep : ∀ (left : Expr) (state : Parser σ) (strength : Power) (rule : OperatorRule),
      during left state → Grammar.standard.operator state.peek.kind = some (strength, rule) →
      power < strength → state.peek.kind ≠ .eof →
      Ensures lost (Rule.operatorBy inner left rule) state.advance during gaveUp) :
    Ensures lost (Rule.absorb inner power left) state
      (fun left after => Rule.continues power after = false ∧ during left after) gaveUp := by
  rw [Rule.absorb]
  refine improveWhile_answer during hduring fun left state hmore hduring => ?_
  have hstandard := hgrammar left state hduring
  obtain ⟨strength, rule, hoperator⟩ := Rule.operator_of_continues hmore
  rw [hstandard] at hoperator
  have hpower : power < strength := by
    rwa [Rule.continues_iff hstandard, Grammar.standard_power_of_operator hoperator] at hmore
  have hpeek := Grammar.ne_eof_of_standard_operator hoperator
  have hextend : Rule.extend inner left state = Rule.operatorBy inner left rule state.advance :=
    Rule.extend_of_operator hstandard hoperator
  have hlater := Keeps.after Parser.Precedes (Rule.operatorBy inner left rule) state.advance
  rw [Ensures, hextend]
  exact ⟨Nat.lt_of_le_of_lt hlater.ahead
      (Parser.ahead_advance_lt (hcurrent left state hduring hpeek)),
    hstep left state strength rule hduring hoperator hpower hpeek⟩

theorem absorb {inner : Power → ParseM σ Expr} [∀ power, Keeps (Loses lost) (inner power)]
    [∀ power, Keeps Parser.Precedes (inner power)] {power : Power} {left : Expr}
    (during : Parser σ → Prop) (hduring : during state)
    (hgrammar : ∀ state, during state → state.grammar = .standard)
    (hcurrent : ∀ state, during state → state.peek.kind ≠ .eof → state.current.kind ≠ .eof)
    (hstep : ∀ (left : Expr) (state : Parser σ) (strength : Power) (rule : OperatorRule),
      during state → Grammar.standard.operator state.peek.kind = some (strength, rule) →
      power < strength → state.peek.kind ≠ .eof →
      Ensures lost (Rule.operatorBy inner left rule) state.advance (fun _ after => during after)
        gaveUp) :
    Ensures lost (Rule.absorb inner power left) state
      (fun _ after => Rule.continues power after = false ∧ during after) gaveUp :=
  absorb_answer (fun _ => during) hduring (fun _ => hgrammar) (fun _ => hcurrent) hstep

section Statements

variable {inner : Power → ParseM σ Expr} [∀ power, Keeps (Loses lost) (inner power)]
  [∀ power, Keeps Parser.Nears (inner power)] (during : Parser σ → Prop)

omit during in
/-- Outcome of a block, from that of each statement behind its opening brace. -/
theorem block_statements {answered : Block → Parser σ → Prop} (during : List Stmt → Parser σ → Prop)
    (hduring : during [] state.advance)
    (hstatement : ∀ found (state : Parser σ), state.current.kind ≠ .closeCurly →
      state.current.kind ≠ .eof → during found state →
      Ensures lost (Rule.statement inner) state
        (fun tree after => during (found ++ [tree]) after.advance)
        fun after => during found after.advance)
    (hclosed : ∀ trees after, after.current.kind = .closeCurly → during trees after →
      answered ⟨state.current, trees⟩ after)
    (hunclosed : ∀ trees after, after.current.kind = .eof → during trees after →
      lost (after.record (.unexpectedToken .closeCurly .eof)) ∨
        answered ⟨state.current, trees⟩ (after.record (.unexpectedToken .closeCurly .eof))) :
    Ensures lost (always (Rule.block inner)) state answered gaveUp := by
  have hkinds (state : Parser σ)
      (hmore : (!state.currentIs .closeCurly && !state.currentIs .eof) = true) :
      state.current.kind ≠ .closeCurly ∧ state.current.kind ≠ .eof := by
    simpa [Parser.currentIs] using hmore
  have hread := answersWhile_answers
    (fun state : Parser σ => !state.currentIs .closeCurly && !state.currentIs .eof)
    (Rule.statement inner) during [] hduring (fun state hmore => (hkinds state hmore).2)
    fun found state hmore => hstatement found state (hkinds state hmore).1 (hkinds state hmore).2
  rw [Ensures, always_apply, Rule.block, Repetition.answersWhile_guarded]
  generalize ParseM.answersWhile _ (Rule.statement inner) state.advance = read at hread ⊢
  obtain ⟨trees, after⟩ := read
  dsimp only at hread ⊢
  rw [List.nil_append] at hread
  by_cases heof : after.current.kind = .eof
  · rw [if_pos (Parser.currentIs_iff.2 heof)]
    rcases hread with hlost | ⟨-, hafter⟩
    · exact Or.inl (Irrevocable.record _ hlost)
    · exact hunclosed _ after heof hafter
  · rw [if_neg fun hend => heof (Parser.currentIs_iff.1 hend)]
    rcases hread with hlost | ⟨hstop, hafter⟩
    · exact Or.inl hlost
    · have hcurly : after.current.kind = .closeCurly := by
        simpa [Parser.currentIs, heof] using hstop
      exact Or.inr (hclosed _ after hcurly hafter)

theorem block {answered : Block → Parser σ → Prop} (hduring : during state.advance)
    (hstatement : ∀ state : Parser σ, state.current.kind ≠ .closeCurly →
      state.current.kind ≠ .eof → during state →
      Ensures lost (Rule.statement inner) state (fun _ after => during after.advance)
        fun after => during after.advance)
    (hclosed : ∀ tree after, after.current.kind = .closeCurly → during after →
      answered tree after)
    (hunclosed : ∀ tree after, after.current.kind = .eof → during after →
      lost (after.record (.unexpectedToken .closeCurly .eof)) ∨
        answered tree (after.record (.unexpectedToken .closeCurly .eof))) :
    Ensures lost (always (Rule.block inner)) state answered gaveUp :=
  block_statements (fun _ => during) hduring (fun _ => hstatement)
    (fun trees => hclosed ⟨state.current, trees⟩) fun trees => hunclosed ⟨state.current, trees⟩

/-- Outcome of reading a whole program, from that of each of its statements.  What is reported last
changes nothing else. -/
theorem parseProgram [Keeps (Loses lost) (Rule.statement (σ := σ) expression)]
    (hduring : during state)
    (hstatement : ∀ state : Parser σ, state.current.kind ≠ .eof → during state →
      Ensures lost (Rule.statement expression) state (fun _ after => during after.advance)
        fun after => during after.advance) :
    ∃ after event, (parseProgram state).2 = { after with log := after.log.push event } ∧
      (lost after ∨ after.current.kind = .eof ∧ during after) := by
  have hopen (state : Parser σ) (hmore : (!state.currentIs .eof) = true) :
      state.current.kind ≠ .eof := by
    simpa [Parser.currentIs] using hmore
  have hread := answersWhile (fun state : Parser σ => !state.currentIs .eof)
    (Rule.statement expression) during hduring hopen
    fun state hmore => hstatement state (hopen state hmore)
  refine ⟨(Rule.statements expression state).2, _, rfl, hread.imp id ?_⟩
  rintro ⟨hstop, hafter⟩
  exact ⟨by simpa [Rule.statements] using hstop, hafter⟩

end Statements

end Ensures

/-- The errors of a source are those that were recorded when the end of its program was reported. -/
theorem parse_errors_eq {source : String} {after : Parser Lexer} {event : Event}
    (hfinal : (parseProgram (Parser.ofSupply (Lexer.ofSource source) maxNesting)).2 =
      { after with log := after.log.push event }) :
    (parse source).2 = after.errors.toList :=
  congrArg (fun final => final.errors.toList) hfinal

end ExprLang
