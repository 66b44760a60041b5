/-
Reading without a limit on how many expressions are open at once.  What bounds the recursion there
is the tokens: an expression inside another one is only read behind a token of the outer one, and
none is ever refused.  The limit only cuts: up to the first expression that is refused, reading with
the limit and without it is one and the same, and with none refused it is the same to the end.
-/
import ExprLang.Proofs.Effect
import ExprLang.Proofs.Operating
import ExprLang.Proofs.Recursion

namespace ExprLang

variable {σ α β : Type} [TokenSupply σ]

/-- Reads an expression of a given power without a limit.  No more expressions lie inside one
another than there are tokens ahead. -/
def unbounded (power : Power) : ParseM σ Expr := fun state =>
  Rule.within ParseM.opened (state.ahead + 1) power state

/-- The program in a source when there is no limit, and the parser behind it. -/
def parseUnbounded (source : String) : Program × Parser Lexer :=
  let (trees, after) :=
    Rule.statements unbounded (Parser.ofSupply (Lexer.ofSource source) maxNesting)
  (⟨trees⟩, after.finish trees.length)

/-- A relation that holds around an open expression also where there was no room for it. -/
class LastingOpened (R : Parser σ → Parser σ → Prop) : Prop extends Lasting R where
  opened {state inside : Parser σ} : R state.opened inside → R state inside.leave

namespace Keeps

variable {R : Parser σ → Parser σ → Prop} [LastingOpened R]

theorem opened (action : ParseM σ α) (haction : Keeps R action) :
    Keeps R (ParseM.opened action) :=
  ⟨fun state => LastingOpened.opened (Keeps.after R action state.opened)⟩

instance (room : Nat) (power : Power) :
    Keeps R (Rule.within ParseM.opened room power : ParseM σ Expr) :=
  Rule.keeps_within ParseM.opened opened room power

instance (power : Power) : Keeps R (unbounded power : ParseM σ Expr) :=
  ⟨fun state => Keeps.after R (Rule.within ParseM.opened (state.ahead + 1) power) state⟩

end Keeps

namespace Parser

instance : LastingOpened (@Precedes σ _) where
  opened {state inside} hinside := by
    refine ⟨hinside.errors, hinside.ahead, hinside.grammar, hinside.limit, ?_⟩
    rw [leave, hinside.depth]
    exact Nat.add_sub_cancel state.depth 1

instance : LastingOpened (@Nears σ _) where
  opened hinside := ⟨hinside.ahead, hinside.reached⟩

/-- What only grows: errors are added, and the greatest depth there has been does not fall. -/
structure Grows (earlier later : Parser σ) : Prop where
  errors : earlier.errors.toList <+: later.errors.toList
  limit : later.limit = earlier.limit
  peak : earlier.peak ≤ later.peak

instance : LastingOpened (@Grows σ) where
  refl state := ⟨List.prefix_refl _, rfl, Nat.le_refl _⟩
  trans hfirst hsecond :=
    ⟨hfirst.errors.trans hsecond.errors, hsecond.limit.trans hfirst.limit,
      Nat.le_trans hfirst.peak hsecond.peak⟩
  advance state := ⟨List.prefix_refl _, rfl, Nat.le_refl _⟩
  record state error :=
    ⟨by rw [record_errors]; exact List.prefix_append _ _, rfl, Nat.le_refl _⟩
  stall state := ⟨List.prefix_refl _, rfl, Nat.le_refl _⟩
  nested {state inside} hroom hinside := by
    simp only [enter, hroom, ↓reduceIte] at hinside
    exact ⟨hinside.errors, hinside.limit, Nat.le_trans (Nat.le_max_left _ _) hinside.peak⟩
  opened {state inside} hinside :=
    ⟨hinside.errors, hinside.limit, Nat.le_trans (Nat.le_max_left _ _) hinside.peak⟩

end Parser

/-- The language is read, with fewer tokens ahead than some number. -/
def Parser.Fewer (few : Nat) (state : Parser σ) : Prop :=
  state.grammar = .standard ∧ state.ahead < few

instance (few : Nat) : Persistent (@Parser.Fewer σ _ few) where
  advance {state} hfewer :=
    ⟨hfewer.1, Nat.lt_of_le_of_lt (Parser.ahead_advance_le state) hfewer.2⟩
  record _ := id
  stall := id

/-- Two ways to read expressions that agree as long as fewer tokens than some number are ahead. -/
class AgreeBelow (few : Nat) (inner other : Power → ParseM σ Expr) : Prop where
  agree {power : Power} {state : Parser σ} : state.grammar = .standard → state.ahead < few →
    inner power state = other power state

namespace AgreeBelow

open ParseM

variable {few : Nat} {state : Parser σ}

instance (inner other : Power → ParseM σ Expr) [AgreeBelow few inner other]
    [∀ power, Keeps Parser.Precedes (inner power)] (power : Power) :
    InStep (.twice (Parser.Fewer few)) (inner power) (other power) where
  inStep := by
    rintro state _ ⟨rfl, hstandard, hfew⟩
    have hlater := Keeps.after Parser.Precedes (inner power) state
    have hsame : inner power state = other power state := agree hstandard hfew
    rw [← hsame]
    exact Or.inl ⟨rfl, rfl, hlater.grammar.trans hstandard, Nat.lt_of_le_of_lt hlater.ahead hfew⟩

/-- Behind a token that is not the end of input there are few enough tokens ahead. -/
theorem advance_bind (first second : ParseM σ α) [InStep (.twice (Parser.Fewer few)) first second]
    (hstandard : state.grammar = .standard) (hkind : state.current.kind ≠ .eof)
    (hfew : state.ahead ≤ few) :
    (advance >>= fun _ => first) state = (advance >>= fun _ => second) state :=
  have hfewer : state.advance.Fewer few :=
    ⟨hstandard, Nat.lt_of_lt_of_le (Parser.ahead_advance_lt hkind) hfew⟩
  Coupling.twice.eq_of_inStep first second hfewer

/-- A token that has to come next is moved on to, or else nothing follows. -/
theorem expect_bind (kind : TokenKind) (first second : ParseM σ α)
    [InStep (.twice (Parser.Fewer few)) first second] (hstandard : state.grammar = .standard)
    (hkind : state.current.kind ≠ .eof) (hfew : state.ahead ≤ few) :
    (expect kind >>= fun _ => first) state = (expect kind >>= fun _ => second) state := by
  by_cases hpeek : state.peekIs kind = true
  · have hexpect : expect kind state = (some (), state.advance) := by rw [expect, if_pos hpeek]
    rw [bind_of_some hexpect, bind_of_some hexpect]
    exact advance_bind first second hstandard hkind hfew
  · have hexpect : expect kind state =
        (none, state.record (.unexpectedToken kind state.peek.kind)) := by
      rw [expect, if_neg hpeek]
    rw [bind_of_none hexpect, bind_of_none hexpect]

section Rules

variable (inner other : Power → ParseM σ Expr) [AgreeBelow few inner other]
  [∀ power, Keeps Parser.Precedes (inner power)]

/-- Every rule for a start moves on before it reads an expression. -/
theorem startBy (rule : StartRule) (hstandard : state.grammar = .standard)
    (hkind : state.current.kind ≠ .eof) (hfew : state.ahead ≤ few) :
    Rule.startBy inner rule state = Rule.startBy other rule state := by
  cases rule with
  | ident => rfl
  | integer => rfl
  | boolean => rfl
  | unary =>
      exact advance_bind
        (inner .unary >>= fun operand => pure (Expr.unary state.current _ operand))
        (other .unary >>= fun operand => pure (Expr.unary state.current _ operand))
        hstandard hkind hfew
  | grouped => exact advance_bind _ _ hstandard hkind hfew
  | conditional => exact expect_bind .openParen _ _ hstandard hkind hfew
  | function => exact expect_bind .openParen _ _ hstandard hkind hfew

/-- At the end of input there is no start, and otherwise its rule moves on first. -/
theorem start (hstandard : state.grammar = .standard) (hfew : state.ahead ≤ few) :
    Rule.start inner state = Rule.start other state := by
  rw [Rule.start, Rule.start, bind_apply, bind_apply, inspect_apply]
  dsimp only
  rw [bind_apply, bind_apply, inspect_apply, hstandard]
  dsimp only
  cases hrule : Grammar.standard.startRule state.current.kind with
  | none => rfl
  | some rule =>
      exact startBy inner other rule hstandard (Grammar.ne_eof_of_standard_startRule hrule) hfew

/-- An operator is moved on to before its right operand is read. -/
theorem absorb (power : Power) (left : Expr) (hstandard : state.grammar = .standard)
    (hfew : state.advance.ahead < few) :
    Rule.absorb inner power left state = Rule.absorb other power left state := by
  rw [Rule.absorb, Rule.absorb, Repetition.improveWhile_guarded, Repetition.improveWhile_guarded]
  cases hmore : Rule.continues power state with
  | false => rw [improveWhile_of_not hmore, improveWhile_of_not hmore]
  | true =>
      obtain ⟨strength, rule, hoperator⟩ := Rule.operator_of_continues hmore
      rw [hstandard] at hoperator
      have hlater := Keeps.after Parser.Precedes (Rule.operatorBy inner left rule) state.advance
      have hfewer : state.advance.Fewer few := ⟨hstandard, hfew⟩
      have hsame : Rule.operatorBy inner left rule state.advance =
          Rule.operatorBy other left rule state.advance :=
        Coupling.twice.eq_of_inStep _ _ hfewer
      rw [improveWhile, if_pos hmore, improveWhile, if_pos hmore,
        Rule.extend_of_operator hstandard hoperator, Rule.extend_of_operator hstandard hoperator,
        ← hsame]
      rcases hanswer : Rule.operatorBy inner left rule state.advance with ⟨_ | better, after⟩
      · rfl
      · rw [hanswer] at hlater
        dsimp only
        split
        · have hfewer : after.Fewer few :=
            ⟨hlater.grammar.trans hstandard, Nat.lt_of_le_of_lt hlater.ahead hfew⟩
          exact Coupling.twice.eq_of_inStep (Rule.absorb inner power better)
            (Rule.absorb other power better) hfewer
        · rfl

/-- Nothing starts at the end of input. -/
theorem start_of_eof (inner : Power → ParseM σ Expr) (hstandard : state.grammar = .standard)
    (heof : state.current.kind = .eof) :
    Rule.start inner state = (none, state.record (.noExpression .eof)) := by
  rw [Rule.start, bind_apply, inspect_apply]
  dsimp only
  rw [bind_apply, inspect_apply, hstandard, heof]
  rfl

/-- An expression inside another one is read with fewer tokens ahead. -/
theorem body [∀ power, Keeps Parser.Nears (inner power)] (power : Power)
    (hstandard : state.grammar = .standard) (hfew : state.ahead ≤ few) :
    Rule.body inner power state = Rule.body other power state := by
  have hnears := Keeps.after Parser.Nears (Rule.start inner) state
  have hlater := Keeps.after Parser.Precedes (Rule.start inner) state
  rw [Rule.body, Rule.body, bind_apply, bind_apply, ← start inner other hstandard hfew]
  rcases hstart : Rule.start inner state with ⟨_ | left, after⟩
  · rfl
  · rw [hstart] at hnears hlater
    have hkind : state.current.kind ≠ .eof := fun heof => by
      rw [start_of_eof inner hstandard heof] at hstart
      cases hstart
    exact absorb inner other power left (hlater.grammar.trans hstandard)
      (Nat.lt_of_lt_of_le (hnears.ahead_advance_lt hkind) hfew)

end Rules

end AgreeBelow

namespace Rule

/-- An expression with more room inside than there are tokens ahead never runs out of it, so how
much room there is does not matter. -/
theorem within_opened_eq {few first second : Nat} {power : Power} {state : Parser σ}
    (hstandard : state.grammar = .standard) (hahead : state.ahead ≤ few) (hfirst : few < first)
    (hsecond : few < second) :
    within ParseM.opened first power state = within ParseM.opened second power state := by
  induction few using Nat.strongRecOn generalizing first second power state with
  | _ few ih =>
      obtain ⟨one, rfl⟩ : ∃ one, first = one + 1 := ⟨first - 1, by omega⟩
      obtain ⟨two, rfl⟩ : ∃ two, second = two + 1 := ⟨second - 1, by omega⟩
      have hagree : AgreeBelow few (within (σ := σ) ParseM.opened one)
          (within ParseM.opened two) :=
        ⟨fun {power state} hstandard hfew =>
          ih state.ahead hfew hstandard (Nat.le_refl _) (by omega) (by omega)⟩
      have hopened : state.opened.grammar = .standard := hstandard
      have hbody := AgreeBelow.body (within ParseM.opened one) (within ParseM.opened two) power
        hopened hahead
      rw [within, within, ParseM.opened_apply, ParseM.opened_apply, hbody]

end Rule

/-- Reading an expression without a limit, in terms of itself: one more expression is opened for its
start and its operators, and all that lies inside is read the same way. -/
theorem unbounded_eq_opened (power : Power) {state : Parser σ}
    (hstandard : state.grammar = .standard) :
    unbounded power state = ParseM.opened (Rule.body unbounded power) state := by
  have hagree : AgreeBelow state.ahead (Rule.within (σ := σ) ParseM.opened state.ahead) unbounded :=
    ⟨fun hstandard hfew =>
      Rule.within_opened_eq hstandard (Nat.le_refl _) hfew (Nat.lt_succ_self _)⟩
  have hopened : state.opened.grammar = .standard := hstandard
  have hbody := AgreeBelow.body (Rule.within ParseM.opened state.ahead) unbounded power hopened
    (Nat.le_refl state.ahead)
  rw [unbounded, Rule.within, ParseM.opened_apply, ParseM.opened_apply, hbody]

/-- No expression has been refused so far. -/
def Parser.Accepting (state : Parser σ) : Prop :=
  ∀ limit, .nestingTooDeep limit ∉ state.errors.toList

omit [TokenSupply σ] in
theorem Parser.Accepting.record {state : Parser σ} {error : SyntaxError}
    (herror : ∀ limit, error ≠ .nestingTooDeep limit) (haccepting : state.Accepting) :
    (state.record error).Accepting := by
  intro limit hmem
  rw [record_errors, List.mem_append, List.mem_singleton] at hmem
  exact hmem.elim (haccepting limit) fun hsame => herror limit hsame.symm

instance : Persistent (@Parser.Accepting σ) where
  advance := id
  record := Parser.Accepting.record
  stall := id

/-- Opening an expression without a limit refuses nothing. -/
theorem ParseM.opened_inStep (first second : ParseM σ Expr)
    (hinside : InStep (.twice Parser.Accepting) first second) :
    InStep (.twice Parser.Accepting) (opened first) (opened second) where
  inStep := by
    rintro state _ ⟨rfl, haccepting⟩
    have hopened : (Coupling.twice Parser.Accepting).together state.opened state.opened :=
      ⟨rfl, haccepting⟩
    obtain ⟨hanswer, hafter, hlater⟩ := (hinside.inStep hopened).resolve_right id
    exact Or.inl ⟨hanswer, congrArg Parser.leave hafter, hlater⟩

instance (power : Power) :
    InStep (.twice Parser.Accepting) (unbounded power : ParseM σ Expr) (unbounded power) where
  inStep := by
    rintro state _ ⟨rfl, haccepting⟩
    exact (Rule.inStep_within ParseM.opened_inStep (state.ahead + 1) power).inStep
      ⟨rfl, haccepting⟩

/-- Reading without a limit never finds an expression nested too deeply, whatever the source is. -/
theorem accepting_parseUnbounded (source : String) : (parseUnbounded source).2.Accepting := by
  have hstart : (Parser.ofSupply (Lexer.ofSource source) maxNesting).Accepting :=
    fun _ => List.not_mem_nil
  have hmeets := InStep.meets (C := .twice Parser.Accepting)
    (ParseM.always (Rule.statements unbounded)) (ParseM.always (Rule.statements unbounded))
    ⟨rfl, hstart⟩
  exact (hmeets.resolve_right id).2.2

namespace Parser

/-- The same parser twice, with just so much room and no expression refused so far. -/
structure Unrefused (room : Nat) (state other : Parser σ) : Prop where
  same : state = other
  standard : state.grammar = .standard
  room : state.depth + room = state.limit
  accepted : state.Accepting

/-- A parser that has refused an expression, beside one that has opened it: the errors in front of
the refusal are the first ones of the other, which has had more open than the limit allows. -/
structure Refused (state other : Parser σ) : Prop where
  errors : ∃ before limit, (∀ limit, .nestingTooDeep limit ∉ before) ∧
    before ++ [.nestingTooDeep limit] <+: state.errors.toList ∧ before <+: other.errors.toList
  peak : other.limit < other.peak

end Parser

/-- A parser with the limit beside one without it.  They part where an expression is refused. -/
def Coupling.cutting (σ : Type) [TokenSupply σ] (room : Nat) : Coupling σ σ where
  together := Parser.Unrefused room
  apart := Parser.Refused
  left := Parser.Precedes
  right := Parser.Grows
  lasting_left := inferInstance
  lasting_right := inferInstance
  current htogether := by rw [htogether.same]
  peek htogether := by rw [htogether.same]
  grammar htogether := by rw [htogether.same]
  advance := by
    rintro state _ ⟨rfl, hstandard, hroom, haccepted⟩
    exact ⟨rfl, hstandard, hroom, haccepted⟩
  record := by
    rintro state _ error herror ⟨rfl, hstandard, hroom, haccepted⟩
    exact ⟨rfl, hstandard, hroom, haccepted.record herror⟩
  stall := by
    rintro state _ ⟨rfl, hstandard, hroom, haccepted⟩
    exact ⟨rfl, hstandard, hroom, haccepted⟩
  ahead htogether _ _ hafter := by rw [htogether.same, hafter.same]
  apart_left hrefused hleft := by
    obtain ⟨⟨before, limit, haccepted, hstate, hother⟩, hpeak⟩ := hrefused
    exact ⟨⟨before, limit, haccepted, hstate.trans hleft.errors, hother⟩, hpeak⟩
  apart_right hrefused hright := by
    obtain ⟨⟨before, limit, haccepted, hstate, hother⟩, hpeak⟩ := hrefused
    refine ⟨⟨before, limit, haccepted, hstate, hother.trans hright.errors⟩, ?_⟩
    rw [hright.limit]
    exact Nat.lt_of_lt_of_le hpeak hright.peak

namespace Coupling.cutting

instance (room : Nat) (power : Power) :
    Keeps (Coupling.cutting σ room).right (unbounded power : ParseM σ Expr) :=
  ⟨Keeps.after Parser.Grows (unbounded power)⟩

/-- Without room left an expression is refused with the limit, and opened without it. -/
theorem refused_of_full (power : Power) {state : Parser σ} (hfull : state.Unrefused 0 state) :
    (expression power state).2.Refused (unbounded power state).2 := by
  obtain ⟨-, hstandard, hroom, haccepted⟩ := hfull
  have hgrows := Keeps.after Parser.Grows (Rule.body unbounded power) state.opened
  have hlimit : (Rule.body unbounded power state.opened).2.limit = state.limit := hgrows.limit
  have hpeak : max state.peak (state.depth + 1) ≤ (Rule.body unbounded power state.opened).2.peak :=
    hgrows.peak
  rw [expression_eq_nested, ParseM.nested_eq_record _ (by omega), unbounded_eq_opened _ hstandard,
    ParseM.opened_apply]
  refine ⟨⟨state.errors.toList, state.limit, haccepted, ?_, hgrows.errors⟩, ?_⟩
  · exact ⟨[], by rw [List.append_nil, Parser.record_errors]⟩
  · simp only [Parser.leave]
    omega

/-- With the limit an expression is refused or read just as without it, up to the first expression
inside it that is refused. -/
instance (room : Nat) (power : Power) :
    InStep (Coupling.cutting σ room) (expression power) (unbounded power) where
  inStep := by
    induction room generalizing power with
    | zero =>
        intro state other hfull
        obtain rfl := hfull.same
        exact Or.inr (refused_of_full power hfull)
    | succ room ih =>
        have hinner (power : Power) :
            InStep (Coupling.cutting σ room) (expression power) (unbounded power) :=
          { inStep := ih power }
        rintro state _ ⟨rfl, hstandard, hroom, haccepted⟩
        have hinside : (Coupling.cutting σ room).together state.opened state.opened :=
          ⟨rfl, hstandard, by simp only [Parser.opened]; omega, haccepted⟩
        have hdepth : (Rule.body expression power state.opened).2.depth = state.depth + 1 :=
          (Keeps.after Parser.Precedes (Rule.body expression power) state.opened).depth
        rw [expression_eq_nested, ParseM.nested_eq_opened _ (by omega),
          unbounded_eq_opened _ hstandard, ParseM.opened_apply, ParseM.opened_apply]
        rcases InStep.meets (Rule.body expression power) (Rule.body unbounded power) hinside with
          ⟨hanswer, hafter⟩ | hrefused
        · refine Or.inl ⟨hanswer, congrArg Parser.leave hafter.same, hafter.standard, ?_,
            hafter.accepted⟩
          have hleft := hafter.room
          simp only [Parser.leave]
          omega
        · exact Or.inr ⟨hrefused.errors, hrefused.peak⟩

end Coupling.cutting

/-- Reading a source with the limit and without it turns out the same, or an expression was
refused. -/
theorem parse_meets_unbounded (source : String) :
    (parse source = ((parseUnbounded source).1, (parseUnbounded source).2.errors.toList) ∧
      ∀ limit, .nestingTooDeep limit ∉ (parse source).2) ∨
    (∃ before limit, (∀ limit, .nestingTooDeep limit ∉ before) ∧
      before ++ [.nestingTooDeep limit] <+: (parse source).2 ∧
      before <+: (parseUnbounded source).2.errors.toList) ∧
      maxNesting < (parseUnbounded source).2.peak := by
  have hstart : (Parser.ofSupply (Lexer.ofSource source) maxNesting).Unrefused maxNesting
      (Parser.ofSupply (Lexer.ofSource source) maxNesting) :=
    ⟨rfl, rfl, Nat.zero_add _, fun _ => List.not_mem_nil⟩
  have hmeets := InStep.meets (C := .cutting Lexer maxNesting)
    (ParseM.always (Rule.statements expression)) (ParseM.always (Rule.statements unbounded)) hstart
  have hlimit : (parseUnbounded source).2.limit = maxNesting :=
    (Keeps.statements (R := Parser.Grows) unbounded
      (Parser.ofSupply (Lexer.ofSource source) maxNesting)).limit
  rcases hmeets with ⟨htrees, hafter⟩ | ⟨herrors, hpeak⟩
  · refine Or.inl ⟨Prod.ext ?_ ?_, hafter.accepted⟩
    · exact congrArg Program.mk (Option.some.inj htrees)
    · exact congrArg (fun state => state.errors.toList) hafter.same
  · refine Or.inr ⟨herrors, ?_⟩
    rw [← hlimit]
    exact hpeak

/-- What stands in front of the first refusal is determined by the errors. -/
theorem eq_of_first_refusal {front before later rest : List SyntaxError} {limit other : Nat}
    (hsplit : front ++ .nestingTooDeep limit :: later = before ++ .nestingTooDeep other :: rest)
    (hfront : ∀ limit, .nestingTooDeep limit ∉ front)
    (hbefore : ∀ limit, .nestingTooDeep limit ∉ before) : front = before := by
  induction front generalizing before with
  | nil =>
      cases before with
      | nil => rfl
      | cons error before =>
          obtain ⟨rfl, -⟩ := List.cons.inj hsplit
          exact absurd List.mem_cons_self (hbefore limit)
  | cons error front ih =>
      cases before with
      | nil =>
          obtain ⟨rfl, -⟩ := List.cons.inj hsplit
          exact absurd List.mem_cons_self (hfront other)
      | cons found before =>
          obtain ⟨rfl, hrest⟩ := List.cons.inj hsplit
          rw [ih hrest (fun limit hmem => hfront limit (List.mem_cons_of_mem _ hmem))
            fun limit hmem => hbefore limit (List.mem_cons_of_mem _ hmem)]

/-- The limit on open expressions only cuts.  Where no expression of a source is refused, the
program and the errors are those of reading without a limit.  The errors in front of the first
refusal are the first ones of reading without a limit.  And where that never has more expressions
open than the limit allows, nothing is refused and the two are the same. -/
theorem parse_eq_unbounded (source : String) :
    ((∀ limit, .nestingTooDeep limit ∉ (parse source).2) →
      parse source = ((parseUnbounded source).1, (parseUnbounded source).2.errors.toList)) ∧
    (∀ before limit later, (parse source).2 = before ++ .nestingTooDeep limit :: later →
      (∀ limit, .nestingTooDeep limit ∉ before) →
      before <+: (parseUnbounded source).2.errors.toList) ∧
    ((parseUnbounded source).2.peak ≤ maxNesting →
      parse source = ((parseUnbounded source).1, (parseUnbounded source).2.errors.toList)) := by
  rcases parse_meets_unbounded source with ⟨hsame, haccepted⟩ |
    ⟨⟨front, limit, hfront, hparse, hunbounded⟩, hpeak⟩
  · refine ⟨fun _ => hsame, fun before limit later hsplit _ => ?_, fun _ => hsame⟩
    exact absurd (hsplit ▸ List.mem_append_right _ List.mem_cons_self) (haccepted limit)
  · have hmem : .nestingTooDeep limit ∈ (parse source).2 :=
      hparse.subset (List.mem_append_right _ List.mem_cons_self)
    refine ⟨fun haccepted => absurd hmem (haccepted limit),
      fun before other later hsplit hbefore => ?_,
      fun hbounded => absurd hpeak (Nat.not_lt.2 hbounded)⟩
    obtain ⟨more, hmore⟩ := hparse
    rw [hsplit, List.append_assoc, List.singleton_append] at hmore
    rw [← eq_of_first_refusal hmore hfront hbefore]
    exact hunbounded

/-- A parenthesis that nothing opens, and behind it one more opening ones than expressions may be
open at once. -/
def tooDeep : String :=
  ")" ++ String.ofList (List.replicate 257 '(')

/-- Past the limit the fault in front of the first refusal is found without the limit too, where
258 expressions are open at once; below it there is nothing to refuse. -/
theorem parse_eq_unbounded_parentheses :
    ((parseUnbounded tooDeep).2.peak = 258 ∧
      (∃ later, (parse tooDeep).2 = [.noExpression .closeParen] ++ .nestingTooDeep 256 :: later) ∧
      [.noExpression .closeParen] <+: (parseUnbounded tooDeep).2.errors.toList) ∧
    ((parseUnbounded "((1 + ;))").2.peak = 4 ∧
      parse "((1 + ;))" =
        ((parseUnbounded "((1 + ;))").1, (parseUnbounded "((1 + ;))").2.errors.toList) ∧
      (parse "((1 + ;))").2 ≠ []) := by
  have hpeak : (parseUnbounded "((1 + ;))").2.peak = 4 := by decide +kernel
  have hdeep : (parseUnbounded tooDeep).2.peak = 258 := by decide +kernel
  have hcut : [.noExpression .closeParen, .nestingTooDeep 256] <+: (parse tooDeep).2 := by
    decide +kernel
  obtain ⟨later, hlater⟩ := hcut
  refine ⟨⟨hdeep, ⟨later, hlater.symm⟩, ?_⟩, hpeak, (parse_eq_unbounded _).2.2 ?_,
    by decide +kernel⟩
  · exact (parse_eq_unbounded tooDeep).2.1 _ _ _ hlater.symm (by simp)
  · rw [hpeak]
    decide

end ExprLang
