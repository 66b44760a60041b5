/-
How an action on a parser turns out: it answers and records nothing, or it records errors, and then
what counts is the first of them.  The rules below derive the outcome of a row of actions from those
of its parts; no later action takes a first error back.
-/
import ExprLang.Proofs.Effect

namespace ExprLang

variable {σ α β : Type}

/-- Errors were added between two parsers, and the first of them is one of `faults`. -/
def Parser.Faulted (faults : SyntaxError → Prop) (earlier later : Parser σ) : Prop :=
  ∃ error more, faults error ∧ later.errors.toList = earlier.errors.toList ++ error :: more

/-- From a parser, an action either answers without recording an error, and then `behind` holds of
its answer and the parser behind it, or the first error it records is one of `faults`. -/
def Leads (action : ParseM σ α) (state : Parser σ) (faults : SyntaxError → Prop)
    (behind : α → Parser σ → Prop) : Prop :=
  (∃ value after, action state = (some value, after) ∧ after.errors = state.errors ∧
      behind value after) ∨
    state.Faulted faults (action state).2

namespace Parser

variable {faults : SyntaxError → Prop} {first second third : Parser σ}

theorem Faulted.of_errors_eq (herrors : second.errors = first.errors)
    (hfault : second.Faulted faults third) : first.Faulted faults third := by
  obtain ⟨error, more, herror, hadded⟩ := hfault
  exact ⟨error, more, herror, by rw [hadded, herrors]⟩

theorem faulted_record {error : SyntaxError} (herror : faults error) (state : Parser σ) :
    state.Faulted faults (state.record error) :=
  ⟨error, [], herror, record_errors error state⟩

variable [TokenSupply σ]

theorem Faulted.trans (hfault : first.Faulted faults second) (hlater : second.Precedes third) :
    first.Faulted faults third := by
  obtain ⟨error, more, herror, hadded⟩ := hfault
  obtain ⟨rest, hrest⟩ := hlater.errors
  refine ⟨error, more ++ rest, herror, ?_⟩
  rw [← hrest, hadded, List.append_assoc, List.cons_append]

/-- A first error that has been added stays the first one. -/
instance (faults : SyntaxError → Prop) (earlier : Parser σ) :
    Irrevocable (earlier.Faulted faults) where
  advance hfault := hfault.trans (Enduring.advance _)
  record error hfault := hfault.trans (Enduring.record _ error)
  stall hfault := hfault.trans (Lasting.stall _)
  enter {state} hfault := by
    rw [enter]
    split
    · exact hfault
    · exact hfault.trans (Enduring.record state _)
  leave hfault := hfault

/-- Moving on from a token that is not the end of input leaves fewer tokens than there were at any
earlier point. -/
theorem Precedes.ahead_advance_lt (hlater : first.Precedes second)
    (hkind : second.current.kind ≠ .eof) : second.advance.ahead < first.ahead :=
  Nat.lt_of_lt_of_le (Parser.ahead_advance_lt hkind) hlater.ahead

end Parser

namespace Leads

open ParseM

variable {action : ParseM σ α} {next : α → ParseM σ β} {state : Parser σ}
  {faults : SyntaxError → Prop} {behind middle : α → Parser σ → Prop} {final : β → Parser σ → Prop}

/-- All is lost once an error has been added, and until then no errors are. -/
theorem iff_ensures :
    Leads action state faults behind ↔
      Ensures (state.Faulted faults) action state
        (fun value after => after.errors = state.errors ∧ behind value after) fun _ => False := by
  rw [Leads, Ensures, or_comm]
  refine or_congr_right ?_
  rcases action state with ⟨_ | value, after⟩
  · simp
  · constructor
    · rintro ⟨_, _, ⟨⟩, herrors, hbehind⟩
      exact ⟨herrors, hbehind⟩
    · rintro ⟨herrors, hbehind⟩
      exact ⟨value, after, rfl, herrors, hbehind⟩

/-- Seen from a parser behind which no errors have been added, the first error is the same. -/
theorem ensures {before : Parser σ} (haction : Leads action state faults behind)
    (herrors : state.errors = before.errors) :
    Ensures (before.Faulted faults) action state
      (fun value after => after.errors = before.errors ∧ behind value after) fun _ => False := by
  rcases iff_ensures.1 haction with hfault | hresult
  · exact Or.inl (hfault.of_errors_eq herrors)
  · rw [herrors] at hresult
    exact Or.inr hresult

theorem mono {weaker : SyntaxError → Prop} (haction : Leads action state faults middle)
    (hfaults : ∀ error, faults error → weaker error)
    (hbehind : ∀ value after, middle value after → behind value after) :
    Leads action state weaker behind := by
  rcases haction with ⟨value, after, hresult, herrors, hmiddle⟩ | ⟨error, more, herror, hadded⟩
  · exact Or.inl ⟨value, after, hresult, herrors, hbehind value after hmiddle⟩
  · exact Or.inr ⟨error, more, hfaults error herror, hadded⟩

/-- The outcome without an error, seen as less. -/
theorem imp (haction : Leads action state faults middle)
    (hbehind : ∀ value after, middle value after → behind value after) :
    Leads action state faults behind :=
  haction.mono (fun _ hfault => hfault) hbehind

/-- The faults, seen as more. -/
theorem weaken {weaker : SyntaxError → Prop} (haction : Leads action state faults behind)
    (hfaults : ∀ error, faults error → weaker error) : Leads action state weaker behind :=
  haction.mono hfaults fun _ _ hbehind => hbehind

theorem pure {value : α} (hbehind : behind value state) :
    Leads (pure value) state faults behind :=
  Or.inl ⟨value, state, rfl, rfl, hbehind⟩

theorem answer {value : α} (hbehind : behind value state) :
    Leads (answer (some value)) state faults behind :=
  Or.inl ⟨value, state, rfl, rfl, hbehind⟩

theorem answer_bind {value : α} (hnext : Leads (next value) state faults final) :
    Leads (ParseM.answer (some value) >>= next) state faults final :=
  hnext

theorem fail {error : SyntaxError} (herror : faults error) :
    Leads (ParseM.fail error : ParseM σ α) state faults behind :=
  Or.inr (Parser.faulted_record herror state)

theorem attempt (haction : Leads action state faults middle) :
    Leads (attempt action) state faults fun result after =>
      ∃ value, result = some value ∧ middle value after := by
  rcases haction with ⟨value, after, hresult, herrors, hmiddle⟩ | hfault
  · refine Or.inl ⟨some value, after, ?_, herrors, value, rfl, hmiddle⟩
    rw [attempt_apply, hresult]
  · exact Or.inr hfault

theorem inspect_bind {view : Parser σ → α} (hnext : Leads (next (view state)) state faults final) :
    Leads (inspect view >>= next) state faults final :=
  hnext

variable [TokenSupply σ]

/-- Outcome of one more open expression. -/
theorem nested
    (hroom : state.depth < state.limit →
      Leads action state.enter.2 faults fun value inside => behind value inside.leave)
    (hfault : ¬ state.depth < state.limit → faults (.nestingTooDeep state.limit)) :
    Leads (nested action) state faults behind := by
  refine iff_ensures.2 (Ensures.nested (fun hopen => ?_) fun hfull => Or.inl ?_)
  · have hsame : state.enter.2.errors = state.errors := by
      simp only [Parser.enter, hopen, ↓reduceIte]
    exact (hroom hopen).ensures hsame
  · exact Parser.faulted_record (hfault hfull) state

/-- What holds behind every action can be added to its outcome. -/
theorem precedes [Keeps Parser.Precedes action] (haction : Leads action state faults behind) :
    Leads action state faults fun value after => state.Precedes after ∧ behind value after := by
  rw [iff_ensures] at haction ⊢
  refine haction.precedes.mono ?_ fun _ hnever => hnever.2
  rintro value after ⟨hlater, herrors, hbehind⟩
  exact ⟨herrors, hlater, hbehind⟩

/-- The outcome of one action after another. -/
theorem bind [Keeps Parser.Precedes action] [∀ value, Keeps Parser.Precedes (next value)]
    (haction : Leads action state faults middle)
    (hnext : ∀ value after, state.Precedes after → after.errors = state.errors →
      middle value after → Leads (next value) after faults final) :
    Leads (action >>= next) state faults final := by
  have hkept (value : α) : Keeps (Loses (state.Faulted faults)) (next value) :=
    ⟨fun after hfault => hfault.trans (Keeps.after Parser.Precedes (next value) after)⟩
  refine iff_ensures.2 (Ensures.bind (iff_ensures.1 haction.precedes) ?_)
  rintro value after ⟨herrors, hlater, hmiddle⟩
  exact (hnext value after hlater herrors hmiddle).ensures herrors

theorem advance_bind {next : Unit → ParseM σ β}
    (hnext : Leads (next ()) state.advance faults final) :
    Leads (advance >>= next) state faults final :=
  hnext

/-- Outcome of a token that has to come next. -/
theorem expect_bind {kind : TokenKind} {next : Unit → ParseM σ β}
    (hnext : state.peek.kind = kind → Leads (next ()) state.advance faults final)
    (hfault : state.peek.kind ≠ kind → faults (.unexpectedToken kind state.peek.kind)) :
    Leads (expect kind >>= next) state faults final := by
  refine iff_ensures.2 (Ensures.expect_bind (fun hkind => ?_) fun hkind => Or.inl ?_)
  · exact (hnext hkind).ensures rfl
  · exact Parser.faulted_record (hfault hkind) state

/-- Outcome of an action that is carried on from even where it gives up: on the way without errors
it has answered. -/
theorem attempt_bind {next : Option α → ParseM σ β} [Keeps Parser.Precedes action]
    [∀ value, Keeps Parser.Precedes (next value)] (haction : Leads action state faults middle)
    (hnext : ∀ value after, state.Precedes after → after.errors = state.errors →
      middle value after → Leads (next (some value)) after faults final) :
    Leads (ParseM.attempt action >>= next) state faults final := by
  refine bind haction.attempt ?_
  rintro result after hlater herrors ⟨value, rfl, hmiddle⟩
  exact hnext value after hlater herrors hmiddle

section Repetition

variable {more : Parser σ → Bool} {step : α → ParseM σ α} {start : α}

theorem improveWhile_done (hmore : more state = false) (hbehind : behind start state) :
    Leads (improveWhile more step start) state faults behind := by
  rw [Leads, improveWhile_of_not hmore]
  exact Or.inl ⟨start, state, rfl, rfl, hbehind⟩

/-- Outcome of a repetition that has another step to take. -/
theorem improveWhile_step [∀ value, Keeps Parser.Precedes (step value)] (hmore : more state = true)
    (hstep : Leads (step start) state faults fun better after =>
      after.ahead < state.ahead ∧ middle better after)
    (hnext : ∀ better after, state.Precedes after → after.errors = state.errors →
      middle better after → Leads (improveWhile more step better) after faults behind) :
    Leads (improveWhile more step start) state faults behind := by
  have hkept := Keeps.after Parser.Precedes (step start) state
  rcases hstep with ⟨better, after, hresult, herrors, hless, hmiddle⟩ | hfault
  · rw [hresult] at hkept
    have hlast := hnext better after hkept herrors hmiddle
    rw [Leads, improveWhile_of_lt hmore hresult hless]
    rcases hlast with ⟨last, final, hlast, hsame, hbehind⟩ | hfault
    · exact Or.inl ⟨last, final, hlast, hsame.trans herrors, hbehind⟩
    · exact Or.inr (hfault.of_errors_eq herrors)
  · refine Or.inr ?_
    rcases hresult : step start state with ⟨value, after⟩
    rw [hresult] at hfault
    cases value with
    | none => rwa [improveWhile_of_none hmore hresult]
    | some better =>
        by_cases hless : after.ahead < state.ahead
        · rw [improveWhile_of_lt hmore hresult hless]
          exact hfault.trans (Keeps.after Parser.Precedes (improveWhile more step better) after)
        · rw [improveWhile_of_not_lt hmore hresult hless]
          exact hfault.trans (Lasting.stall after)

/-- Outcome of a repetition whose next step begins with an advance from a token that is not the end
of input. -/
theorem improveWhile_advance {remainder : ParseM σ α} [Keeps Parser.Precedes remainder]
    [∀ value, Keeps Parser.Precedes (step value)] (hmore : more state = true)
    (hkind : state.current.kind ≠ .eof) (hstep : step start state = remainder state.advance)
    (hremainder : Leads remainder state.advance faults middle)
    (hnext : ∀ better after, after.ahead < state.ahead → after.errors = state.errors →
      middle better after → Leads (improveWhile more step better) after faults behind) :
    Leads (improveWhile more step start) state faults behind := by
  have hless {after : Parser σ} (hlater : state.advance.Precedes after) :
      after.ahead < state.ahead :=
    Nat.lt_of_le_of_lt hlater.ahead (Parser.ahead_advance_lt hkind)
  have htaken : Leads (step start) state faults fun better after =>
      after.ahead < state.ahead ∧ after.ahead < state.ahead ∧ middle better after := by
    have hkept := hremainder.precedes
    rw [Leads, hstep]
    rw [Leads] at hkept
    rcases hkept with ⟨better, after, hresult, herrors, hlater, hmiddle⟩ | hfault
    · exact Or.inl ⟨better, after, hresult, herrors, hless hlater, hless hlater, hmiddle⟩
    · exact Or.inr hfault
  refine improveWhile_step hmore htaken ?_
  rintro better after - herrors ⟨hahead, hmiddle⟩
  exact hnext better after hahead herrors hmiddle

theorem answersWhile_done {behind : List α → Parser σ → Prop} (hmore : more state = false)
    (hbehind : behind [] state) :
    Leads (always (answersWhile more action)) state faults behind := by
  refine Or.inl ⟨[], state, ?_, rfl, hbehind⟩
  rw [always_apply, answersWhile_of_not hmore]

/-- Outcome of a repetition that runs its action once more. -/
theorem answersWhile_step {final : List α → Parser σ → Prop} [Keeps Parser.Precedes action]
    (hmore : more state = true)
    (haction : Leads action state faults fun value after =>
      after.current.kind ≠ .eof ∧ middle value after)
    (hnext : ∀ value after, state.Precedes after → after.errors = state.errors →
      middle value after → Leads (always (answersWhile more action)) after.advance faults
        fun values last => final (value :: values) last) :
    Leads (always (answersWhile more action)) state faults final := by
  have hkept := Keeps.after Parser.Precedes action state
  rcases haction with ⟨value, after, hresult, herrors, hkind, hmiddle⟩ | hfault
  · rw [hresult] at hkept
    have hless : after.advance.ahead < state.ahead := hkept.ahead_advance_lt hkind
    have hlast := hnext value after hkept herrors hmiddle
    rw [Leads, always_apply, answersWhile_of_lt hmore hresult hless]
    rw [Leads, always_apply] at hlast
    rcases hlast with ⟨values, last, hlast, hsame, hfinal⟩ | hfault
    · obtain ⟨hvalues, hafter⟩ := Prod.mk.inj hlast
      refine Or.inl ⟨value :: values, last, ?_, hsame.trans herrors, hfinal⟩
      rw [← Option.some.inj hvalues, ← hafter]
      rfl
    · exact Or.inr (hfault.of_errors_eq herrors)
  · refine Or.inr ?_
    rcases hresult : action state with ⟨value, after⟩
    rw [hresult] at hfault
    rw [always_apply]
    by_cases hless : after.advance.ahead < state.ahead
    · rw [answersWhile_of_lt hmore hresult hless]
      exact hfault.trans (Enduring.trans (Enduring.advance after)
        (Keeps.answersWhile more action after.advance))
    · rw [answersWhile_of_not_lt hmore hresult hless]
      exact hfault.trans (Enduring.trans (Enduring.advance after) (Lasting.stall _))

end Repetition

/-- Outcome of a block, from that of the statements behind its opening brace.  Running into the end
of input is a fault. -/
theorem block {inner : Power → ParseM σ Expr} {behind : Block → Parser σ → Prop}
    (hstatements : Leads
      (always (answersWhile
        (fun state => !state.currentIs .closeCurly && !state.currentIs .eof)
        (Rule.statement inner)))
      state.advance faults fun trees after =>
        if after.current.kind = .eof then faults (.unexpectedToken .closeCurly .eof)
        else behind ⟨state.current, trees⟩ after)
    [∀ power, Keeps Parser.Precedes (inner power)] :
    Leads (always (Rule.block inner)) state faults behind := by
  rw [Leads, always_apply, Rule.block, Repetition.answersWhile_guarded]
  rw [Leads, always_apply] at hstatements
  rcases hstatements with ⟨trees, after, hresult, herrors, hbehind⟩ | hfault
  · obtain ⟨htrees, hafter⟩ := Prod.mk.inj hresult
    have htrees := Option.some.inj htrees
    dsimp only
    rw [htrees, hafter]
    by_cases hkind : after.current.kind = .eof
    · rw [if_pos hkind] at hbehind
      rw [if_pos (Parser.currentIs_iff.2 hkind)]
      have hfault := Parser.faulted_record hbehind after
      exact Or.inr (hfault.of_errors_eq herrors)
    · rw [if_neg hkind] at hbehind
      rw [if_neg fun heof => hkind (Parser.currentIs_iff.1 heof)]
      exact Or.inl ⟨_, after, rfl, herrors, hbehind⟩
  · refine Or.inr ?_
    dsimp only
    split
    · exact hfault.trans (Enduring.record _ _)
    · exact hfault

/-- Outcome of reading a whole program, from that of its statements. -/
theorem parseProgram {behind : List Stmt → Parser σ → Prop}
    (hstatements : Leads (always (Rule.statements expression)) state faults behind) :
    ((parseProgram state).2.errors = state.errors ∧
        ∃ after, behind (parseProgram state).1.statements after) ∨
      state.Faulted faults (parseProgram state).2 := by
  rw [Leads, always_apply] at hstatements
  rcases hstatements with ⟨trees, after, hresult, herrors, hbehind⟩ | hfault
  · obtain ⟨htrees, hafter⟩ := Prod.mk.inj hresult
    have htrees := Option.some.inj htrees
    have hread : Rule.statements expression state = (trees, after) := by
      rw [← htrees, ← hafter]
    rw [ExprLang.parseProgram, hread]
    exact Or.inl ⟨herrors, after, hbehind⟩
  · exact Or.inr hfault

end Leads

end ExprLang
