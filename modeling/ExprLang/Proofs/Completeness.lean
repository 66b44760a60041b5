/-
Every phrase of the language is read, and nesting is the only thing that can be wrong with it.  With
room for its depth a phrase is read as the tree it is derived as; with less room the first error is
that expressions are nested too deep.  The proof is by induction on the derivation, with one lemma
for each way to derive a phrase.
-/
import ExprLang.Proofs.FirstFault
import ExprLang.Proofs.Precedence
import ExprLang.Proofs.Reading

namespace ExprLang

open ParseM

variable {σ α β : Type} [TokenSupply σ]

/-- What is wrong with a phrase that is deeper than its bound. -/
def Overflows (limit bound depth : Nat) (error : SyntaxError) : Prop :=
  bound < depth ∧ error = .nestingTooDeep limit

/-- An action reads a value of some depth.  It answers with the value and has the rest ahead if the
depth is within the bound, and else its first error is that expressions are nested too deep. -/
def Delivers (action : ParseM σ α) (state : Parser σ) (value : α) (depth bound limit room : Nat)
    (rest : List Token) : Prop :=
  Leads action state (Overflows limit bound depth) fun found after =>
    found = value ∧ depth ≤ bound ∧ after.current.kind ≠ .eof ∧ after.advance.Reads limit room rest

/-- What comes first of the tokens neither binds an expression in front of them more tightly than a
power nor opens another arm of a conditional. -/
def Ends (power : Power) (tokens : List Token) : Prop :=
  (tokens.headD .endOfInput).kind ≠ .kwElse ∧
    Grammar.standard.power (tokens.headD .endOfInput).kind ≤ power

/-- The tokens behind a semicolon that comes first, or all of them. -/
def behindSemicolon : List Token → List Token
  | [] => []
  | token :: rest => if token.kind = .semicolon then rest else token :: rest

/-- A repetition of statements goes on up to just these tokens. -/
structure Stops (more : Parser σ → Bool) (limit room : Nat) (tokens : List Token) : Prop where
  goes (state : Parser σ) : state.current.kind ≠ .closeCurly → state.current.kind ≠ .eof →
    more state = true
  stops (state : Parser σ) : state.Reads limit room tokens → more state = false
  starts : StartsWithout (.semicolon :: .kwElse :: continuations) tokens

/-- The statements of a block go on up to its closing brace. -/
theorem Stops.block {limit room : Nat} {closing : Token} {rest : List Token}
    (hclosing : closing.kind = .closeCurly) :
    Stops (fun state : Parser σ => !state.currentIs .closeCurly && !state.currentIs .eof) limit room
      (closing :: rest) where
  goes state hcurly heof := by
    simp [Parser.currentIs, hcurly, heof]
  stops state hreads := by
    simp [Parser.currentIs, hreads.current_cons, hclosing]
  starts first hfirst := by
    obtain rfl : closing = first := Option.some.inj hfirst
    rw [hclosing]
    decide

/-- The statements of a program go on up to the end of input. -/
theorem Stops.program (limit room : Nat) :
    Stops (fun state : Parser σ => !state.currentIs .eof) limit room [] where
  goes state _ heof := by
    simp [Parser.currentIs, heof]
  stops state hreads := by
    simp [Parser.currentIs, hreads.current_kind_eq_eof_iff]
  starts first hfirst := by
    contradiction

/-- How each phrase is read.  An expression is read at any power of a stratum no tighter than its
own: reading it there comes down to going on behind it with the operators of that power. -/
def Completes (σ : Type) [TokenSupply σ] : Phrase → List Token → Nat → Prop
  | .expression stratum tree, tokens, depth =>
      ∀ {power : Power} {limit room : Nat} {state : Parser σ} {rest : List Token}
        {faults : SyntaxError → Prop} {behind : Expr → Parser σ → Prop},
        power ≠ .call → power.stratum.rank ≤ stratum.rank →
        state.Reads limit room (tokens ++ rest) → Ends stratum.power rest →
        (∀ error, Overflows limit (room + 1) depth error → faults error) →
        (∀ after : Parser σ, depth ≤ room + 1 → after.current.kind ≠ .eof →
          after.advance.Reads limit room rest →
          Leads (Rule.absorb expression power tree) after faults behind) →
        Leads (Rule.body expression power) state faults behind
  | .arguments trees, tokens, depth =>
      ∀ {limit room : Nat} {state : Parser σ} {closing : Token} {rest : List Token},
        closing.kind = .closeParen → state.advance.Reads limit room (tokens ++ closing :: rest) →
        Delivers (Rule.arguments expression) state trees depth (room + 1) limit room rest
  | .moreArguments trees, tokens, depth =>
      ∀ {limit room : Nat} {state : Parser σ} {closing : Token} {rest : List Token}
        (found : List Expr), closing.kind = .closeParen → state.current.kind ≠ .eof →
        state.advance.Reads limit room (tokens ++ closing :: rest) →
        Delivers
          (improveWhile (Parser.peekIs .comma) (Rule.onePart (Rule.argument expression)) found)
          state (found ++ trees) depth (room + 1) limit room (closing :: rest)
  | .block tree, tokens, depth =>
      ∀ {limit room : Nat} {state : Parser σ} {rest : List Token},
        state.Reads limit room (tokens ++ rest) →
        Delivers (always (Rule.block expression)) state tree depth room limit room rest
  | .alternative tree, tokens, depth =>
      ∀ {limit room : Nat} {state : Parser σ} {rest : List Token},
        state.current.kind ≠ .eof → state.advance.Reads limit room (tokens ++ rest) →
        (rest.headD .endOfInput).kind ≠ .kwElse →
        Delivers (Rule.alternative expression) state tree depth room limit room rest
  | .statement tree, tokens, depth =>
      ∀ {limit room : Nat} {state : Parser σ} {rest : List Token},
        state.Reads limit room (tokens ++ rest) → StartsWithout (.kwElse :: continuations) rest →
        Delivers (Rule.statement expression) state tree depth room limit room (behindSemicolon rest)
  | .statements trees, tokens, depth =>
      ∀ {limit room : Nat} {more : Parser σ → Bool} {state : Parser σ} {rest : List Token},
        Stops more limit room rest → state.Reads limit room (tokens ++ rest) →
        Leads (always (answersWhile more (Rule.statement expression))) state
          (Overflows limit room depth) fun found after =>
            found = trees ∧ depth ≤ room ∧ after.Reads limit room rest

theorem Overflows.widen {limit inside within bound depth : Nat} {error : SyntaxError}
    (hover : Overflows limit within inside error) (hdeep : within < inside → bound < depth) :
    Overflows limit bound depth error :=
  ⟨hdeep hover.1, hover.2⟩

namespace Ends

variable {power wider : Power} {token : Token} {tokens : List Token}

theorem mono (hends : Ends power tokens) (hpower : power ≤ wider) : Ends wider tokens :=
  ⟨hends.1, Nat.le_trans hends.2 hpower⟩

/-- An operator ends the expressions of its stratum. -/
theorem operator {stratum : Stratum} (hkind : token.kind ∈ stratum.operators) :
    Ends stratum.power (token :: tokens) := by
  have hpower := Grammar.standard_power_of_operator (Grammar.standard_operator_of_mem hkind)
  constructor
  · rw [List.headD_cons]
    intro helse
    rw [helse] at hkind
    cases stratum <;> contradiction
  · rw [List.headD_cons, hpower]
    exact Nat.le_refl _

/-- An opening parenthesis ends what can be called. -/
theorem parenthesis (hkind : token.kind = .openParen) : Ends .call (token :: tokens) := by
  constructor
  · rw [List.headD_cons, hkind]
    decide
  · exact Power.le_call _

/-- What neither goes on with an expression nor is another arm ends expressions of any power. -/
theorem of_startsWithout (hstarts : StartsWithout (.kwElse :: continuations) tokens) :
    Ends power tokens := by
  cases tokens with
  | nil => exact ⟨by decide, Power.lowest_le power⟩
  | cons token rest =>
      have hkind := hstarts token rfl
      rw [List.mem_cons, not_or, ← Grammar.standard_lowest_lt_power_iff] at hkind
      exact ⟨hkind.1, Nat.le_trans (Nat.not_lt.1 hkind.2) (Power.lowest_le power)⟩

theorem of_kind {kind : TokenKind} (hkind : token.kind = kind)
    (hfree : kind ∉ .kwElse :: continuations) : Ends power (token :: tokens) := by
  apply of_startsWithout
  intro first hfirst
  obtain rfl : token = first := Option.some.inj hfirst
  rwa [hkind]

/-- An argument ends where more of them or the closing parenthesis follow. -/
theorem arguments {closing : Token} {rest : List Token}
    (hstarts : ∀ token ∈ tokens.head?, token.kind = .comma)
    (hclosing : closing.kind = .closeParen) : Ends power (tokens ++ closing :: rest) := by
  cases tokens with
  | nil => exact of_kind hclosing (by decide)
  | cons token tokens => exact of_kind (hstarts token rfl) (by decide)

/-- Behind an expression that has ended, no operator of the power is left. -/
theorem not_continues {state : Parser σ} {limit room : Nat} (hends : Ends power tokens)
    (hreads : state.advance.Reads limit room tokens) : Rule.continues power state = false := by
  have hgrammar : state.grammar = .standard := hreads.grammar
  have hpeek : state.peek = tokens.headD .endOfInput := hreads.faces.current
  rw [← Bool.not_eq_true, Rule.continues_iff hgrammar, hpeek]
  exact Nat.not_lt.2 hends.2

end Ends

theorem Leads.expect_bind_cons {next : Unit → ParseM σ β} {state : Parser σ} {token : Token}
    {kind : TokenKind} {limit room : Nat} {rest : List Token} {faults : SyntaxError → Prop}
    {final : β → Parser σ → Prop} (hreads : state.advance.Reads limit room (token :: rest))
    (hkind : token.kind = kind) (hnext : Leads (next ()) state.advance faults final) :
    Leads (expect kind >>= next) state faults final := by
  have hpeek : state.peek = token := hreads.current_cons
  refine expect_bind (fun _ => hnext) fun hother => ?_
  rw [hpeek] at hother
  contradiction

namespace Delivers

variable {action : ParseM σ α} {state : Parser σ} {value : α} {inside within : Nat}
  {bound depth limit room : Nat} {rest : List Token} {final : β → Parser σ → Prop}

/-- One action after another: what is too deep for the first is too deep for both. -/
theorem bind {next : α → ParseM σ β} [Keeps Parser.Precedes action]
    [∀ value, Keeps Parser.Precedes (next value)]
    (haction : Delivers action state value inside within limit room rest)
    (hdeep : within < inside → bound < depth)
    (hnext : ∀ after, inside ≤ within → after.current.kind ≠ .eof →
      after.advance.Reads limit room rest →
      Leads (next value) after (Overflows limit bound depth) final) :
    Leads (action >>= next) state (Overflows limit bound depth) final := by
  have hwidened := haction.weaken fun _ hover => hover.widen hdeep
  refine Leads.bind hwidened ?_
  rintro found after - - ⟨rfl, hfits, hlast, hbehind⟩
  exact hnext after hfits hlast hbehind

theorem attempt_bind {next : Option α → ParseM σ β} [Keeps Parser.Precedes action]
    [∀ value, Keeps Parser.Precedes (next value)]
    (haction : Delivers action state value inside within limit room rest)
    (hdeep : within < inside → bound < depth)
    (hnext : ∀ after, inside ≤ within → after.current.kind ≠ .eof →
      after.advance.Reads limit room rest →
      Leads (next (some value)) after (Overflows limit bound depth) final) :
    Leads (ParseM.attempt action >>= next) state (Overflows limit bound depth) final := by
  have hwidened := haction.weaken fun _ hover => hover.widen hdeep
  refine Leads.attempt_bind hwidened ?_
  rintro found after - - ⟨rfl, hfits, hlast, hbehind⟩
  exact hnext after hfits hlast hbehind

theorem pure (hfits : depth ≤ bound) (hlast : state.current.kind ≠ .eof)
    (hbehind : state.advance.Reads limit room rest) :
    Delivers (pure value) state value depth bound limit room rest :=
  Leads.pure ⟨rfl, hfits, hlast, hbehind⟩

end Delivers

/-- A phrase that is complete as an expression of the stratum of a power is read at that power. -/
theorem Completes.delivers {stratum : Stratum} {tree : Expr} {tokens rest : List Token}
    {depth limit room : Nat} {power : Power} {state : Parser σ}
    (htree : Completes σ (.expression stratum tree) tokens depth) (hdepth : 0 < depth)
    (hpower : power ≠ .call) (hstratum : power.stratum = stratum)
    (hreads : state.Reads limit room (tokens ++ rest)) (hends : Ends power rest) :
    Delivers (expression power) state tree depth room limit room rest := by
  rw [Delivers, expression_eq_nested]
  -- Without room the phrase is too deep, because it opens at least one expression.
  cases room with
  | zero =>
      refine Leads.nested (fun hopen => ?_) fun _ => ?_
      · exact absurd hreads.depth_eq_limit (Nat.ne_of_lt hopen)
      · exact ⟨hdepth, congrArg SyntaxError.nestingTooDeep hreads.limit⟩
  | succ room =>
      refine Leads.nested (fun _ => ?_) fun hfull => absurd hreads.depth_lt_limit hfull
      have hwider : Ends stratum.power rest := by
        rw [← hstratum]
        exact hends.mono (Power.le_power_stratum hpower)
      have hbody : Leads (Rule.body expression power) state.enter.2
          (Overflows limit (room + 1) depth) fun found inside =>
            found = tree ∧ depth ≤ room + 1 ∧ inside.current.kind ≠ .eof ∧
              inside.advance.Reads limit room rest := by
        refine htree hpower (Nat.le_of_eq (congrArg _ hstratum)) hreads.enter hwider
          (fun _ hover => hover) ?_
        intro after hfits hlast hbehind
        exact Leads.improveWhile_done (hends.not_continues hbehind) ⟨rfl, hfits, hlast, hbehind⟩
      refine hbody.precedes.imp ?_
      rintro found inside ⟨hinside, rfl, hfits, hlast, hbehind⟩
      exact ⟨rfl, hfits, hlast, hreads.leave_advance hinside hbehind⟩

namespace Completes

section Starts

variable {stratum : Stratum} {tree : Expr} {tokens : List Token} {depth : Nat}

/-- An expression whose start already is the whole of it. -/
theorem of_start
    (hstart : ∀ {limit room : Nat} {state : Parser σ} {rest : List Token},
      state.Reads limit room (tokens ++ rest) → Ends stratum.power rest →
      Delivers (Rule.start expression) state tree depth (room + 1) limit room rest) :
    Completes σ (.expression stratum tree) tokens depth := by
  intro power limit room state rest faults behind _ _ hreads hends hfaults hnext
  have hread := (hstart hreads hends).weaken hfaults
  rw [Rule.body]
  refine Leads.bind hread ?_
  rintro found after - - ⟨rfl, hfits, hlast, hbehind⟩
  exact hnext after hfits hlast hbehind

/-- The start of an expression is read by the rule for its first token. -/
theorem start_by {state : Parser σ} {token : Token} (rule : StartRule) {limit room bound : Nat}
    {rest behind : List Token} (hreads : state.Reads limit room (token :: behind))
    (hrule : Grammar.standard.startRule token.kind = some rule)
    (hread : Delivers (Rule.startBy expression rule) state tree depth bound limit room rest) :
    Delivers (Rule.start expression) state tree depth bound limit room rest := by
  rw [Delivers, Rule.start]
  apply Leads.inspect_bind
  apply Leads.inspect_bind
  rw [hreads.grammar, hreads.current_cons, hrule]
  exact hread

end Starts

section Expressions

variable {opening closing keyword operator comma : Token} {first second third : List Token}
  {d₁ d₂ d₃ : Nat}

theorem ident {name : Token} (hkind : name.kind = .identifier) :
    Completes σ (.expression .primary (.ident ⟨name, name.lexeme⟩)) [name] 1 := by
  apply of_start
  intro limit room state rest hreads _
  apply start_by .ident hreads (by rw [hkind]; rfl)
  rw [Rule.startBy, Delivers, Rule.ident]
  apply Leads.inspect_bind
  rw [Parser.currentIdent, hreads.current_cons]
  exact Delivers.pure (by omega) hreads.kind_ne_eof hreads.advance

theorem integer {number : Token} (hkind : number.kind = .integer)
    (hrun : isDigitRun number.lexeme.toList = true)
    (hrange : decimalValue number.lexeme.toList ≤ maxInteger) :
    Completes σ (.expression .primary
      (.integer number (Int64.ofNat (decimalValue number.lexeme.toList)))) [number] 1 := by
  apply of_start
  intro limit room state rest hreads _
  apply start_by .integer hreads (by rw [hkind]; rfl)
  rw [Rule.startBy, Delivers, Rule.integer]
  apply Leads.inspect_bind
  rw [hreads.current_cons, readInteger?_of_isDigitRun hrun, if_pos hrange]
  exact Delivers.pure (by omega) hreads.kind_ne_eof hreads.advance

theorem boolean {word : Token} (hkind : word.kind = .kwTrue ∨ word.kind = .kwFalse) :
    Completes σ (.expression .primary (.boolean word (decide (word.kind = .kwTrue)))) [word] 1 := by
  apply of_start
  intro limit room state rest hreads _
  apply start_by .boolean hreads (by rcases hkind with hkind | hkind <;> (rw [hkind]; rfl))
  rw [Rule.startBy, Delivers, Rule.boolean]
  apply Leads.inspect_bind
  rw [hreads.current_cons]
  exact Delivers.pure (by omega) hreads.kind_ne_eof hreads.advance

theorem grouped {tree : Expr} (hopening : opening.kind = .openParen)
    (htree : Completes σ (.expression .equality tree) first d₁) (hdepth : 0 < d₁)
    (hclosing : closing.kind = .closeParen) :
    Completes σ (.expression .primary tree) (opening :: (first ++ [closing])) (1 + d₁) := by
  apply of_start
  intro limit room state rest hreads _
  rw [List.cons_append, List.append_assoc] at hreads
  apply start_by .grouped hreads (by rw [hopening]; rfl)
  rw [Rule.startBy, Delivers, Rule.grouped]
  apply Leads.advance_bind
  refine Delivers.attempt_bind
    (htree.delivers hdepth (by decide) rfl hreads.advance (Ends.of_kind hclosing (by decide)))
    (by omega) ?_
  intro after hfits _ hbehind
  apply Leads.expect_bind_cons hbehind hclosing
  exact Leads.answer ⟨rfl, by omega, hbehind.kind_ne_eof, hbehind.advance⟩

theorem unary {tree : Expr} (hkind : operator.kind = .minus ∨ operator.kind = .bang)
    (htree : Completes σ (.expression .unary tree) first d₁) (hdepth : 0 < d₁) :
    Completes σ (.expression .unary (.unary operator operator.lexeme tree)) (operator :: first)
      (1 + d₁) := by
  apply of_start
  intro limit room state rest hreads hends
  apply start_by .unary hreads (by rcases hkind with hkind | hkind <;> (rw [hkind]; rfl))
  rw [Rule.startBy, Delivers, Rule.unary]
  apply Leads.inspect_bind
  apply Leads.advance_bind
  rw [hreads.current_cons]
  refine Delivers.bind (htree.delivers hdepth (by decide) rfl hreads.advance hends) (by omega) ?_
  intro after hfits hlast hbehind
  exact Delivers.pure (by omega) hlast hbehind

theorem tighter {stratum : Stratum} {tree : Expr}
    (htree : Completes σ (.expression stratum.next tree) first d₁) :
    Completes σ (.expression stratum tree) first d₁ := by
  intro power limit room state rest faults behind hpower hrank hreads hends hfaults hnext
  exact htree hpower (Nat.le_trans hrank stratum.rank_le_rank_next) hreads
    (hends.mono stratum.power_le_power_next) hfaults hnext

/-- One round of the repetition takes an operator that binds more tightly than the power. -/
theorem absorb_operator {power strength : Power} {rule : OperatorRule} {left tree : Expr}
    {state : Parser σ} {behind rest : List Token} {depth bound limit room : Nat}
    {faults : SyntaxError → Prop} {final : Expr → Parser σ → Prop}
    (hreads : state.advance.Reads limit room (operator :: behind))
    (hlast : state.current.kind ≠ .eof)
    (hoperator : Grammar.standard.operator operator.kind = some (strength, rule))
    (hweak : power < strength)
    (hread : Delivers (Rule.operatorBy expression left rule) state.advance tree depth bound limit
      room rest)
    (hfaults : ∀ error, Overflows limit bound depth error → faults error)
    (hnext : ∀ after : Parser σ, depth ≤ bound → after.current.kind ≠ .eof →
      after.advance.Reads limit room rest →
      Leads (Rule.absorb expression power tree) after faults final) :
    Leads (Rule.absorb expression power left) state faults final := by
  have hgrammar : state.grammar = .standard := hreads.grammar
  have hpeek : state.peek = operator := hreads.current_cons
  have hmore : Rule.continues power state = true := by
    rw [Rule.continues_iff hgrammar, hpeek, Grammar.standard_power_of_operator hoperator]
    exact hweak
  have hstep : Rule.extend expression left state =
      Rule.operatorBy expression left rule state.advance :=
    Rule.extend_of_operator hgrammar (by rw [hpeek]; exact hoperator)
  have htaken := hread.weaken hfaults
  rw [Rule.absorb]
  refine Leads.improveWhile_advance hmore hlast hstep htaken ?_
  rintro found after - - ⟨rfl, hfits, hlast, hbehind⟩
  exact hnext after hfits hlast hbehind

theorem binary {stratum : Stratum} {left right : Expr}
    (hleft : Completes σ (.expression stratum left) first d₁)
    (hkind : operator.kind ∈ stratum.operators)
    (hright : Completes σ (.expression stratum.next right) second d₂) (hdepth : 0 < d₂) :
    Completes σ (.expression stratum (.binary operator operator.lexeme left right))
      (first ++ operator :: second) (max d₁ (1 + d₂)) := by
  intro power limit room state rest faults behind hpower hrank hreads hends hfaults hnext
  have hoperator := Grammar.standard_operator_of_mem hkind
  rw [List.append_assoc, List.cons_append] at hreads
  -- The left operand is read at the same power, and behind it the repetition meets the operator.
  refine hleft hpower hrank hreads (Ends.operator hkind)
    (fun error hover => hfaults error (hover.widen (by omega))) ?_
  intro after hd₁ hlast hbehind
  have hread : Delivers (Rule.operatorBy expression left .binary) after.advance
      (.binary operator operator.lexeme left right) (1 + d₂) (room + 1) limit room rest := by
    have hpower : after.advance.currentPower = stratum.power := by
      rw [Parser.currentPower, hbehind.grammar, hbehind.current_cons]
      exact Grammar.standard_power_of_operator hoperator
    rw [Rule.operatorBy, Delivers, Rule.binary]
    apply Leads.inspect_bind
    apply Leads.inspect_bind
    apply Leads.advance_bind
    rw [hpower, hbehind.current_cons]
    refine Delivers.bind (hright.delivers hdepth (Stratum.power_ne_call_of_mem hkind)
      (Stratum.power_stratum_of_mem hkind) hbehind.advance hends) (by omega) ?_
    intro later hd₂ hlast hlater
    exact Delivers.pure (by omega) hlast hlater
  refine absorb_operator hbehind hlast hoperator (Stratum.lt_power_of_rank_le hkind hrank) hread
    (fun error hover => hfaults error (hover.widen (by omega))) ?_
  intro later hd₂ hlast hlater
  exact hnext later (by omega) hlast hlater

theorem call {callee : Expr} {trees : List Expr}
    (hcallee : Completes σ (.expression .application callee) first d₁)
    (hopening : opening.kind = .openParen) (htrees : Completes σ (.arguments trees) second d₂)
    (hclosing : closing.kind = .closeParen) :
    Completes σ (.expression .application (.call opening callee trees))
      (first ++ opening :: (second ++ [closing])) (max d₁ d₂) := by
  intro power limit room state rest faults behind hpower hrank hreads _ hfaults hnext
  rw [List.append_assoc, List.cons_append, List.append_assoc] at hreads
  refine hcallee hpower hrank hreads (Ends.parenthesis hopening)
    (fun error hover => hfaults error (hover.widen (by omega))) ?_
  intro after hd₁ hlast hbehind
  have hread : Delivers (Rule.operatorBy expression callee .call) after.advance
      (.call opening callee trees) d₂ (room + 1) limit room rest := by
    rw [Rule.operatorBy, Delivers, Rule.call]
    apply Leads.inspect_bind
    rw [hbehind.current_cons]
    refine Delivers.bind (htrees hclosing hbehind.advance) (by omega) ?_
    intro later hd₂ hlast hlater
    exact Delivers.pure hd₂ hlast hlater
  refine absorb_operator hbehind hlast (by rw [hopening]; rfl) (Power.lt_call hpower) hread
    (fun error hover => hfaults error (hover.widen (by omega))) ?_
  intro later hd₂ hlast hlater
  exact hnext later (by omega) hlast hlater

theorem noMoreArguments : Completes σ (.moreArguments []) [] 0 := by
  intro limit room state closing rest found hclosing hlast hreads
  have hpeek : state.peek = closing := hreads.current_cons
  apply Leads.improveWhile_done
  · rw [Parser.peekIs, hpeek, hclosing]
    rfl
  · exact ⟨(List.append_nil found).symm, Nat.zero_le _, hlast, hreads⟩

theorem moreArguments {tree : Expr} {trees : List Expr} (hcomma : comma.kind = .comma)
    (htree : Completes σ (.expression .equality tree) first d₁) (hdepth : 0 < d₁)
    (htrees : Completes σ (.moreArguments trees) second d₂)
    (hstarts : ∀ token ∈ second.head?, token.kind = .comma) :
    Completes σ (.moreArguments (tree :: trees)) (comma :: (first ++ second))
      (max (1 + d₁) d₂) := by
  intro limit room state closing rest found hclosing hlast hreads
  rw [List.cons_append, List.append_assoc] at hreads
  have hpeek : state.peek = comma := hreads.current_cons
  have hmore : state.peekIs .comma = true := by
    rw [Parser.peekIs_iff, hpeek, hcomma]
  have hnext : Leads (do
        let next ← Rule.argument expression
        pure (found ++ [next]))
      state.advance (Overflows limit (room + 1) (max (1 + d₁) d₂)) fun better after =>
        better = found ++ [tree] ∧ d₁ ≤ room ∧ after.current.kind ≠ .eof ∧
          after.advance.Reads limit room (second ++ closing :: rest) := by
    have hargument : Delivers (Rule.argument expression) state.advance tree d₁ room limit room
        (second ++ closing :: rest) := by
      rw [Delivers, Rule.argument]
      apply Leads.advance_bind
      exact htree.delivers hdepth (by decide) rfl hreads.advance (Ends.arguments hstarts hclosing)
    refine Delivers.bind hargument (by omega) ?_
    intro after hd₁ hlast hbehind
    exact Leads.pure ⟨rfl, hd₁, hlast, hbehind⟩
  refine Leads.improveWhile_advance hmore hlast rfl hnext ?_
  rintro better after - - ⟨rfl, hd₁, hlast, hbehind⟩
  refine (htrees (found ++ [tree]) hclosing hlast hbehind).mono
    (fun _ hover => hover.widen (by omega)) ?_
  rintro later final ⟨rfl, hd₂, hlast, hfinal⟩
  exact ⟨List.append_assoc _ _ _, by omega, hlast, hfinal⟩

theorem noArguments : Completes σ (.arguments []) [] 0 := by
  intro limit room state closing rest hclosing hreads
  have hpeek : state.peekIs .closeParen = true := by
    rw [Parser.peekIs_iff, ← hclosing]
    exact congrArg Token.kind hreads.current_cons
  rw [Delivers, Rule.arguments]
  apply Leads.inspect_bind
  rw [if_pos hpeek]
  apply Leads.advance_bind
  exact Delivers.pure (Nat.zero_le _) hreads.kind_ne_eof hreads.advance

theorem arguments {tree : Expr} {trees : List Expr}
    (hfirst : Derives (.expression .equality tree) first d₁)
    (htree : Completes σ (.expression .equality tree) first d₁)
    (htrees : Completes σ (.moreArguments trees) second d₂)
    (hstarts : ∀ token ∈ second.head?, token.kind = .comma) :
    Completes σ (.arguments (tree :: trees)) (first ++ second) (max (1 + d₁) d₂) := by
  intro limit room state closing rest hclosing hreads
  rw [List.append_assoc] at hreads
  have hpeek : ¬ state.peekIs .closeParen = true := by
    obtain ⟨head, later, rfl, hkind⟩ := hfirst.exists_starter
    rw [Parser.peekIs_iff]
    intro hclose
    have hhead : state.peek = head := hreads.current_cons
    rw [← hhead, hclose] at hkind
    contradiction
  rw [Delivers, Rule.arguments]
  apply Leads.inspect_bind
  rw [if_neg hpeek]
  refine Delivers.bind (Leads.advance_bind (htree.delivers hfirst.depth_pos (by decide) rfl hreads
    (Ends.arguments hstarts hclosing))) (by omega) ?_
  intro after hd₁ hlast hbehind
  refine Delivers.bind (htrees [tree] hclosing hlast hbehind) (by omega) ?_
  intro later hd₂ hlast hlater
  apply Leads.expect_bind_cons hlater hclosing
  exact Delivers.pure (by omega) hlater.kind_ne_eof hlater.advance

theorem block {trees : List Stmt} (htrees : Completes σ (.statements trees) first d₁)
    (hclosing : closing.kind = .closeCurly) :
    Completes σ (.block ⟨opening, trees⟩) (opening :: (first ++ [closing])) d₁ := by
  intro limit room state rest hreads
  rw [List.cons_append, List.append_assoc] at hreads
  apply Leads.block
  refine (htrees (Stops.block hclosing) hreads.advance).imp ?_
  rintro found after ⟨rfl, hfits, hbehind⟩
  rw [if_neg hbehind.kind_ne_eof, hreads.current_cons]
  exact ⟨rfl, hfits, hbehind.kind_ne_eof, hbehind.advance⟩

theorem noAlternative : Completes σ (.alternative none) [] 0 := by
  intro limit room state rest hlast hreads hfree
  have hpeek : ¬ state.peekIs .kwElse = true := by
    have hhead : state.peek = rest.headD .endOfInput := hreads.faces.current
    rw [Parser.peekIs_iff, hhead]
    exact hfree
  rw [Delivers, Rule.alternative]
  apply Leads.inspect_bind
  rw [if_neg hpeek]
  exact Delivers.pure (Nat.zero_le _) hlast hreads

theorem alternative {tree : Block} (hkind : keyword.kind = .kwElse)
    (harm : Derives (.block tree) first d₁) (htree : Completes σ (.block tree) first d₁) :
    Completes σ (.alternative (some tree)) (keyword :: first) d₁ := by
  intro limit room state rest hlast hreads _
  obtain ⟨opening, later, rfl, hopening⟩ := harm.exists_brace
  have hpeek : state.peekIs .kwElse = true := by
    rw [Parser.peekIs_iff, ← hkind]
    exact congrArg Token.kind hreads.current_cons
  rw [Delivers, Rule.alternative]
  apply Leads.inspect_bind
  rw [if_pos hpeek]
  apply Leads.advance_bind
  apply Leads.expect_bind_cons hreads.advance hopening
  refine Delivers.bind (htree hreads.advance) (fun hdeep => hdeep) ?_
  intro after hfits hlast hbehind
  exact Delivers.pure hfits hlast hbehind

theorem conditional {condition : Expr} {consequent : Block} {other : Option Block}
    (hkind : keyword.kind = .kwIf) (hopening : opening.kind = .openParen)
    (hcondition : Completes σ (.expression .equality condition) first d₁) (hdepth : 0 < d₁)
    (hclosing : closing.kind = .closeParen) (hblock : Derives (.block consequent) second d₂)
    (hconsequent : Completes σ (.block consequent) second d₂)
    (hother : Completes σ (.alternative other) third d₃) :
    Completes σ (.expression .primary (.conditional keyword condition consequent other))
      (keyword :: opening :: (first ++ closing :: (second ++ third)))
      (1 + max d₁ (max d₂ d₃)) := by
  obtain ⟨curly, later, rfl, hcurly⟩ := hblock.exists_brace
  apply of_start
  intro limit room state rest hreads hends
  simp only [List.cons_append, List.append_assoc] at hreads
  apply start_by .conditional hreads (by rw [hkind]; rfl)
  rw [Rule.startBy, Delivers, Rule.conditional]
  apply Leads.inspect_bind
  apply Leads.expect_bind_cons hreads.advance hopening
  apply Leads.advance_bind
  rw [hreads.current_cons]
  refine Delivers.attempt_bind (hcondition.delivers hdepth (by decide) rfl hreads.advance.advance
    (Ends.of_kind hclosing (by decide))) (by omega) ?_
  intro after hd₁ _ hbehind
  apply Leads.expect_bind_cons hbehind hclosing
  apply Leads.expect_bind_cons hbehind.advance hcurly
  refine Delivers.bind (hconsequent hbehind.advance) (by omega) ?_
  intro after hd₂ hlast hbehind
  refine Delivers.bind (hother hlast hbehind hends.1) (by omega) ?_
  intro after hd₃ hlast hbehind
  apply Leads.answer_bind
  exact Delivers.pure (by omega) hlast hbehind

end Expressions

section Parameters

variable {closing : Token} {limit room : Nat} {tokens rest : List Token} {names : List Ident}

theorem nextIdent {state : Parser σ} {name : Token}
    (hreads : state.advance.Reads limit room (name :: rest)) (hkind : name.kind = .identifier) :
    Delivers Rule.nextIdent state ⟨name, name.lexeme⟩ 0 0 limit room rest := by
  rw [Delivers, Rule.nextIdent]
  apply Leads.expect_bind_cons hreads hkind
  have hident : state.advance.currentIdent = ⟨name, name.lexeme⟩ := by
    rw [Parser.currentIdent, hreads.current_cons]
  refine Or.inl ⟨_, state.advance, rfl, rfl, hident, Nat.le_refl 0, hreads.kind_ne_eof,
    hreads.advance⟩

theorem moreParameters (hnames : MoreParameters names tokens)
    (hclosing : closing.kind = .closeParen)
    {state : Parser σ} (found : List Ident) (hlast : state.current.kind ≠ .eof)
    (hreads : state.advance.Reads limit room (tokens ++ closing :: rest)) :
    Delivers (improveWhile (Parser.peekIs .comma) (Rule.onePart Rule.nextIdent) found)
      state (found ++ names) 0 0 limit room (closing :: rest) := by
  induction hnames generalizing state found with
  | nil =>
      have hpeek : state.peek = closing := hreads.current_cons
      apply Leads.improveWhile_done
      · rw [Parser.peekIs, hpeek, hclosing]
        rfl
      · exact ⟨(List.append_nil found).symm, Nat.le_refl 0, hlast, hreads⟩
  | @cons comma name names tokens hcomma hname _ ih =>
      have hpeek : state.peek = comma := hreads.current_cons
      have hmore : state.peekIs .comma = true := by
        rw [Parser.peekIs_iff, hpeek, hcomma]
      have hnext : Leads (do
            let next ← Rule.nextIdent
            pure (found ++ [next]))
          state.advance (Overflows limit 0 0) fun better after =>
            better = found ++ [⟨name, name.lexeme⟩] ∧ after.current.kind ≠ .eof ∧
              after.advance.Reads limit room (tokens ++ closing :: rest) := by
        refine Delivers.bind (nextIdent hreads.advance hname) (fun hdeep => hdeep) ?_
        intro after _ hlast hbehind
        exact Leads.pure ⟨rfl, hlast, hbehind⟩
      refine Leads.improveWhile_advance hmore hlast rfl hnext ?_
      rintro better after - - ⟨rfl, hlast, hbehind⟩
      have hlater := ih (found ++ [⟨name, name.lexeme⟩]) hlast hbehind
      rw [List.append_assoc, List.singleton_append] at hlater
      exact hlater

theorem parameters (hnames : Parameters names tokens) (hclosing : closing.kind = .closeParen)
    {state : Parser σ} (hreads : state.advance.Reads limit room (tokens ++ closing :: rest)) :
    Delivers Rule.parameters state names 0 0 limit room rest := by
  rw [Delivers, Rule.parameters]
  apply Leads.inspect_bind
  cases hnames with
  | nil =>
      have hpeek : state.peekIs .closeParen = true := by
        rw [Parser.peekIs_iff, ← hclosing]
        exact congrArg Token.kind hreads.current_cons
      rw [if_pos hpeek]
      apply Leads.advance_bind
      exact Delivers.pure (Nat.le_refl 0) hreads.kind_ne_eof hreads.advance
  | @cons name names tokens hname hmore =>
      have hpeek : ¬ state.peekIs .closeParen = true := by
        have hhead : state.peek = name := hreads.current_cons
        rw [Parser.peekIs_iff, hhead, hname]
        decide
      rw [if_neg hpeek]
      refine Delivers.bind (nextIdent hreads hname) (fun hdeep => hdeep) ?_
      intro after _ hlast hbehind
      refine Delivers.bind (moreParameters hmore hclosing [_] hlast hbehind) (fun hdeep => hdeep) ?_
      intro after _ hlast hbehind
      apply Leads.expect_bind_cons hbehind hclosing
      exact Delivers.pure (Nat.le_refl 0) hbehind.kind_ne_eof hbehind.advance

theorem function {keyword opening : Token} {body : Block} {second : List Token} {depth : Nat}
    (hkind : keyword.kind = .kwFn) (hopening : opening.kind = .openParen)
    (hnames : Parameters names tokens) (hclosing : closing.kind = .closeParen)
    (hblock : Derives (.block body) second depth) (hbody : Completes σ (.block body) second depth) :
    Completes σ (.expression .primary (.function keyword names body))
      (keyword :: opening :: (tokens ++ closing :: second)) (1 + depth) := by
  obtain ⟨curly, later, rfl, hcurly⟩ := hblock.exists_brace
  apply of_start
  intro limit room state rest hreads _
  simp only [List.cons_append, List.append_assoc] at hreads
  apply start_by .function hreads (by rw [hkind]; rfl)
  rw [Rule.startBy, Delivers, Rule.function]
  apply Leads.inspect_bind
  apply Leads.expect_bind_cons hreads.advance hopening
  rw [hreads.current_cons]
  refine Delivers.bind (parameters hnames hclosing hreads.advance.advance) (by omega) ?_
  intro after _ _ hbehind
  apply Leads.expect_bind_cons hbehind hcurly
  refine Delivers.bind (hbody hbehind) (by omega) ?_
  intro after hfits hlast hbehind
  exact Delivers.pure (by omega) hlast hbehind

end Parameters

section Statements

variable {tokens rest : List Token} {limit room : Nat}

/-- A semicolon that comes next is taken, and nothing else. -/
theorem skipSemicolon {state : Parser σ} (hlast : state.current.kind ≠ .eof)
    (hreads : state.advance.Reads limit room rest) :
    Delivers Rule.skipSemicolon state () 0 0 limit room (behindSemicolon rest) := by
  by_cases hmark : state.peekIs .semicolon = true
  · have hskip : Rule.skipSemicolon state = (some (), state.advance) := by
      rw [Rule.skipSemicolon, if_pos hmark]
    rw [Parser.peekIs_iff] at hmark
    obtain ⟨later, rfl⟩ := hreads.exists_peek hmark (by decide)
    rw [behindSemicolon, if_pos hmark]
    exact Or.inl ⟨(), _, hskip, rfl, rfl, Nat.le_refl 0, hreads.kind_ne_eof, hreads.advance⟩
  · have hskip : Rule.skipSemicolon state = (some (), state) := by
      rw [Rule.skipSemicolon, if_neg hmark]
    have hsame : behindSemicolon rest = rest := by
      cases rest with
      | nil => rfl
      | cons token later =>
          have hpeek : state.peek = token := hreads.current_cons
          rw [Parser.peekIs_iff, hpeek] at hmark
          rw [behindSemicolon, if_neg hmark]
    rw [hsame]
    exact Or.inl ⟨(), state, hskip, rfl, rfl, Nat.le_refl 0, hlast, hreads⟩

/-- A statement is read by the rule for its first token. -/
theorem statement_by {tree : Stmt} {state : Parser σ} {token : Token} (rule : StatementRule)
    {depth bound : Nat} {behind : List Token} (hreads : state.Reads limit room (token :: behind))
    (hrule : (Grammar.standard.statementRule token.kind).getD .expression = rule)
    (hread : Delivers (Rule.statementBy expression rule) state tree depth bound limit room rest) :
    Delivers (Rule.statement expression) state tree depth bound limit room rest := by
  rw [Delivers, Rule.statement]
  apply Leads.inspect_bind
  rw [hreads.grammar, hreads.current_cons, hrule]
  exact hread

theorem binding {keyword name sign : Token} {tree : Expr} {depth : Nat}
    (hkind : keyword.kind = .kwLet) (hname : name.kind = .identifier) (hsign : sign.kind = .assign)
    (htree : Completes σ (.expression .equality tree) tokens depth) (hdepth : 0 < depth) :
    Completes σ (.statement (.binding keyword ⟨name, name.lexeme⟩ (some tree)))
      (keyword :: name :: sign :: tokens) depth := by
  intro limit room state rest hreads hfree
  have hident : state.advance.currentIdent = ⟨name, name.lexeme⟩ := by
    rw [Parser.currentIdent, hreads.advance.current_cons]
  apply statement_by .binding hreads (by rw [hkind]; rfl)
  rw [Rule.statementBy, Delivers, Rule.binding]
  apply Leads.inspect_bind
  apply Leads.expect_bind_cons hreads.advance hname
  apply Leads.inspect_bind
  apply Leads.expect_bind_cons hreads.advance.advance hsign
  apply Leads.advance_bind
  rw [hident, hreads.current_cons]
  refine Delivers.attempt_bind (htree.delivers hdepth (by decide) rfl
    hreads.advance.advance.advance (Ends.of_startsWithout hfree)) (fun hdeep => hdeep) ?_
  intro after hfits hlast hbehind
  refine Delivers.bind (skipSemicolon hlast hbehind) (by omega) ?_
  intro after _ hlast hbehind
  exact Delivers.pure hfits hlast hbehind

theorem returning {keyword : Token} {tree : Expr} {depth : Nat} (hkind : keyword.kind = .kwReturn)
    (htree : Completes σ (.expression .equality tree) tokens depth) (hdepth : 0 < depth) :
    Completes σ (.statement (.returning keyword (some tree))) (keyword :: tokens) depth := by
  intro limit room state rest hreads hfree
  apply statement_by .returning hreads (by rw [hkind]; rfl)
  rw [Rule.statementBy, Delivers, Rule.returning]
  apply Leads.inspect_bind
  apply Leads.advance_bind
  rw [hreads.current_cons]
  refine Delivers.attempt_bind (htree.delivers hdepth (by decide) rfl hreads.advance
    (Ends.of_startsWithout hfree)) (fun hdeep => hdeep) ?_
  intro after hfits hlast hbehind
  refine Delivers.bind (skipSemicolon hlast hbehind) (by omega) ?_
  intro after _ hlast hbehind
  exact Delivers.pure hfits hlast hbehind

theorem expressionStatement {first : Token} {tree : Expr} {depth : Nat}
    (hderives : Derives (.expression .equality tree) (first :: tokens) depth)
    (htree : Completes σ (.expression .equality tree) (first :: tokens) depth) :
    Completes σ (.statement (.expression first tree)) (first :: tokens) depth := by
  intro limit room state rest hreads hfree
  have hrule : (Grammar.standard.statementRule first.kind).getD .expression = .expression := by
    obtain ⟨head, later, htokens, hkind⟩ := hderives.exists_starter
    obtain ⟨rfl, rfl⟩ := List.cons.inj htokens
    rw [Grammar.standard_statementRule_of_mem_starters hkind]
    rfl
  apply statement_by .expression hreads hrule
  rw [Rule.statementBy, Delivers, Rule.expressionStatement]
  apply Leads.inspect_bind
  rw [hreads.current_cons]
  refine Delivers.attempt_bind (htree.delivers hderives.depth_pos (by decide) rfl hreads
    (Ends.of_startsWithout hfree)) (fun hdeep => hdeep) ?_
  intro after hfits hlast hbehind
  refine Delivers.bind (skipSemicolon hlast hbehind) (by omega) ?_
  intro after _ hlast hbehind
  apply Leads.answer_bind
  exact Delivers.pure hfits hlast hbehind

theorem noStatements : Completes σ (.statements []) [] 0 := by
  intro limit room more state rest hstops hreads
  exact Leads.answersWhile_done (hstops.stops state hreads) ⟨rfl, Nat.zero_le _, hreads⟩

variable {tree : Stmt} {trees : List Stmt} {first second : List Token} {d₁ d₂ : Nat}

/-- One round of the repetition reads a statement and skips the semicolon behind it. -/
theorem cons_statements {more : Parser σ → Bool} {state : Parser σ} {behind : List Token}
    (hfirst : Derives (.statement tree) first d₁) (htree : Completes σ (.statement tree) first d₁)
    (htrees : Completes σ (.statements trees) second d₂) (hstops : Stops more limit room rest)
    (hreads : state.Reads limit room (first ++ behind))
    (hfree : StartsWithout (.kwElse :: continuations) behind)
    (hbehind : behindSemicolon behind = second ++ rest) :
    Leads (always (answersWhile more (Rule.statement expression))) state
      (Overflows limit room (max d₁ d₂)) fun found after =>
        found = tree :: trees ∧ max d₁ d₂ ≤ room ∧ after.Reads limit room rest := by
  have hmore : more state = true := by
    obtain ⟨head, later, rfl, hkind⟩ := hfirst.exists_first
    have hhead : state.current = head := hreads.current_cons
    refine hstops.goes state ?_ hreads.kind_ne_eof
    intro hclose
    rw [← hhead, hclose] at hkind
    contradiction
  have hread : Leads (Rule.statement expression) state (Overflows limit room (max d₁ d₂))
      fun found after => after.current.kind ≠ .eof ∧ found = tree ∧ d₁ ≤ room ∧
        after.advance.Reads limit room (second ++ rest) := by
    refine (htree hreads hfree).mono (fun _ hover => hover.widen (by omega)) ?_
    rintro found after ⟨rfl, hfits, hlast, hafter⟩
    rw [hbehind] at hafter
    exact ⟨hlast, rfl, hfits, hafter⟩
  refine Leads.answersWhile_step hmore hread ?_
  rintro found after - - ⟨rfl, hd₁, hafter⟩
  refine (htrees hstops hafter).mono (fun _ hover => hover.widen (by omega)) ?_
  rintro later final ⟨rfl, hd₂, hfinal⟩
  exact ⟨rfl, by omega, hfinal⟩

theorem terminated {semicolon : Token} (hfirst : Derives (.statement tree) first d₁)
    (htree : Completes σ (.statement tree) first d₁) (hkind : semicolon.kind = .semicolon)
    (htrees : Completes σ (.statements trees) second d₂) :
    Completes σ (.statements (tree :: trees)) (first ++ semicolon :: second) (max d₁ d₂) := by
  intro limit room more state rest hstops hreads
  rw [List.append_assoc, List.cons_append] at hreads
  have hfree : StartsWithout (.kwElse :: continuations) (semicolon :: (second ++ rest)) := by
    intro token htoken
    obtain rfl : semicolon = token := Option.some.inj htoken
    rw [hkind]
    decide
  have hbehind : behindSemicolon (semicolon :: (second ++ rest)) = second ++ rest := by
    rw [behindSemicolon, if_pos hkind]
  exact cons_statements hfirst htree htrees hstops hreads hfree hbehind

theorem unterminated (hfirst : Derives (.statement tree) first d₁)
    (htree : Completes σ (.statement tree) first d₁) (hfree : StartsWithout continuations second)
    (hsecond : Derives (.statements trees) second d₂)
    (htrees : Completes σ (.statements trees) second d₂) :
    Completes σ (.statements (tree :: trees)) (first ++ second) (max d₁ d₂) := by
  intro limit room more state rest hstops hreads
  rw [List.append_assoc] at hreads
  -- No statement starts with a semicolon or another arm, so what follows is left alone.
  have hstarts : StartsWithout (.semicolon :: .kwElse :: continuations) (second ++ rest) := by
    cases second with
    | nil => exact hstops.starts
    | cons head later =>
        intro token htoken
        obtain rfl : head = token := Option.some.inj htoken
        have hkind := hsecond.statements_start head rfl
        rw [List.mem_cons, List.mem_cons, not_or, not_or]
        refine ⟨?_, ?_, hfree head rfl⟩
        · intro hmark
          rw [hmark] at hkind
          contradiction
        · intro helse
          rw [helse] at hkind
          contradiction
  have hsame : behindSemicolon (second ++ rest) = second ++ rest := by
    cases hall : second ++ rest with
    | nil => rfl
    | cons head later =>
        have hkind := hstarts head (by rw [hall]; rfl)
        rw [List.mem_cons, not_or] at hkind
        rw [behindSemicolon, if_neg hkind.1]
  exact cons_statements hfirst htree htrees hstops hreads hstarts.of_cons hsame

end Statements

end Completes

/-- Every phrase is read the way its kind of phrase is. -/
theorem Derives.completes {phrase : Phrase} {tokens : List Token} {depth : Nat}
    (hphrase : Derives phrase tokens depth) : Completes σ phrase tokens depth := by
  induction hphrase with
  | ident hkind => exact Completes.ident hkind
  | integer hkind hrun hrange => exact Completes.integer hkind hrun hrange
  | boolean hkind => exact Completes.boolean hkind
  | grouped hopening hinside hclosing ih =>
      exact Completes.grouped hopening ih hinside.depth_pos hclosing
  | conditional hkind hopening hcondition hclosing hconsequent _ ih₁ ih₂ ih₃ =>
      exact Completes.conditional hkind hopening ih₁ hcondition.depth_pos hclosing hconsequent ih₂
        ih₃
  | function hkind hopening hnames hclosing hbody ih =>
      exact Completes.function hkind hopening hnames hclosing hbody ih
  | call _ hopening _ hclosing ih₁ ih₂ => exact Completes.call ih₁ hopening ih₂ hclosing
  | unary hkind hoperand ih => exact Completes.unary hkind ih hoperand.depth_pos
  | binary _ hkind hright ih₁ ih₂ => exact Completes.binary ih₁ hkind ih₂ hright.depth_pos
  | tighter _ ih => exact Completes.tighter ih
  | noArguments => exact Completes.noArguments
  | arguments hfirst hmore ih₁ ih₂ =>
      exact Completes.arguments hfirst ih₁ ih₂ hmore.moreArguments_starts
  | noMoreArguments => exact Completes.noMoreArguments
  | moreArguments hcomma hfirst hmore ih₁ ih₂ =>
      exact Completes.moreArguments hcomma ih₁ hfirst.depth_pos ih₂ hmore.moreArguments_starts
  | block _ _ hclosing ih => exact Completes.block ih hclosing
  | noAlternative => exact Completes.noAlternative
  | alternative hkind harm ih => exact Completes.alternative hkind harm ih
  | binding hkind hname hsign hvalue ih =>
      exact Completes.binding hkind hname hsign ih hvalue.depth_pos
  | returning hkind hvalue ih => exact Completes.returning hkind ih hvalue.depth_pos
  | expression hvalue ih => exact Completes.expressionStatement hvalue ih
  | noStatements => exact Completes.noStatements
  | terminated hfirst hkind _ ih₁ ih₂ => exact Completes.terminated hfirst ih₁ hkind ih₂
  | unterminated hfirst hfree hsecond ih₁ ih₂ =>
      exact Completes.unterminated hfirst ih₁ hfree hsecond ih₂

/-- A row of statements that is all there is up to the end of input is read as the program that it
is derived as, or its first error is that expressions are nested too deep. -/
theorem parseProgram_complete {state : Parser σ} {trees : List Stmt} {tokens : List Token}
    {depth limit room : Nat} (hprogram : Derives (.statements trees) tokens depth)
    (hreads : state.Reads limit room tokens) :
    (depth ≤ room ∧ (parseProgram state).1 = ⟨trees⟩ ∧
        (parseProgram state).2.errors = state.errors) ∨
      state.Faulted (Overflows limit room depth) (parseProgram state).2 := by
  rw [← List.append_nil tokens] at hreads
  rcases Leads.parseProgram (hprogram.completes (Stops.program limit room) hreads) with
    ⟨herrors, after, hfound, hfits, -⟩ | hfault
  · exact Or.inl ⟨hfits, congrArg Program.mk hfound, herrors⟩
  · exact Or.inr hfault

/-- A source whose tokens are derived as a program is read as that program if there is room for its
depth, and else its first error is that expressions are nested too deep. -/
theorem parse_complete {source : String} {trees : List Stmt} {depth : Nat}
    (hprogram : Derives (.statements trees) (scanAll source.toList) depth) :
    (depth ≤ maxNesting ∧ parse source = (⟨trees⟩, [])) ∨
      (maxNesting < depth ∧
        ∃ later, (parse source).2 = .nestingTooDeep maxNesting :: later) := by
  rcases parseProgram_complete hprogram (Parser.reads_ofSource source maxNesting) with
    ⟨hfits, hfound, herrors⟩ | ⟨error, later, ⟨hdeep, rfl⟩, hadded⟩
  · refine Or.inl ⟨hfits, Prod.ext hfound ?_⟩
    exact congrArg Array.toList herrors
  · exact Or.inr ⟨hdeep, later, hadded⟩

/-- What is derived from all tokens of a source is what is read.  The depth of statements in a row
is that of the deepest one: up to the limit the program is answered and there are no errors, and
beyond it the first error is that expressions are nested too deep. -/
theorem parse_of_derives {source : String} {trees : List Stmt} {tokens : List Token} {depth : Nat}
    (hprogram : Derives (.statements trees) tokens depth)
    (htokens : tokenize source = tokens ++ [.endOfInput]) :
    (depth ≤ maxNesting → parse source = (⟨trees⟩, [])) ∧
      (maxNesting < depth →
        ∃ later, (parse source).2 = .nestingTooDeep maxNesting :: later) := by
  rw [tokenize_eq_scanAll, List.append_cancel_right_eq] at htokens
  rw [← htokens] at hprogram
  constructor
  · intro hfits
    rcases parse_complete hprogram with ⟨-, hparse⟩ | ⟨hdeep, -⟩
    · exact hparse
    · exact absurd hfits (Nat.not_le.2 hdeep)
  · intro hdeep
    rcases parse_complete hprogram with ⟨hfits, -⟩ | ⟨-, hfault⟩
    · exact absurd hfits (Nat.not_le.2 hdeep)
    · exact hfault

theorem parse_of_derives_negation :
    Derives (.statements [.expression ⟨.minus, "-"⟩ (.unary ⟨.minus, "-"⟩ "-"
        (.ident ⟨⟨.identifier, "x"⟩, "x"⟩))])
      [⟨.minus, "-"⟩, ⟨.identifier, "x"⟩, ⟨.semicolon, ";"⟩] 2 ∧
    tokenize "-x;" = [⟨.minus, "-"⟩, ⟨.identifier, "x"⟩, ⟨.semicolon, ";"⟩] ++ [.endOfInput] ∧
    parse "-x;" = (⟨[.expression ⟨.minus, "-"⟩ (.unary ⟨.minus, "-"⟩ "-"
      (.ident ⟨⟨.identifier, "x"⟩, "x"⟩))]⟩, []) := by
  have hname : Derives (.expression .unary (.ident ⟨⟨.identifier, "x"⟩, "x"⟩))
      [⟨.identifier, "x"⟩] 1 :=
    (Derives.ident rfl).loosen (by decide)
  have htree : Derives (.expression .equality (.unary ⟨.minus, "-"⟩ "-"
      (.ident ⟨⟨.identifier, "x"⟩, "x"⟩))) [⟨.minus, "-"⟩, ⟨.identifier, "x"⟩] 2 :=
    (Derives.unary (Or.inl rfl) hname).loosen (by decide)
  have hprogram : Derives (.statements [.expression ⟨.minus, "-"⟩ (.unary ⟨.minus, "-"⟩ "-"
        (.ident ⟨⟨.identifier, "x"⟩, "x"⟩))])
      [⟨.minus, "-"⟩, ⟨.identifier, "x"⟩, ⟨.semicolon, ";"⟩] 2 :=
    .terminated (.expression htree) rfl .noStatements
  have htokens : tokenize "-x;" =
      [⟨.minus, "-"⟩, ⟨.identifier, "x"⟩, ⟨.semicolon, ";"⟩] ++ [.endOfInput] := by
    decide +kernel
  exact ⟨hprogram, htokens, (parse_of_derives hprogram htokens).1 (by decide)⟩

end ExprLang
