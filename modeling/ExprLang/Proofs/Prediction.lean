/-
The language predicted token by token.  What is still due of a program is a stack.  A token takes up
what is due first, or what is due first is left out where it may be, or the token does not fit.
Whatever is due behind tokens that fit can be made up with a few fixed ones.
-/
import ExprLang.Grammar
import ExprLang.Proofs.Spelling

namespace ExprLang

/-- What can be due at some point of a program. -/
inductive Due
  /-- A token of a kind. -/
  | token (kind : TokenKind)
  /-- An expression of a power. -/
  | operand (power : Power)
  /-- Operators that bind more tightly than a power, with what belongs behind them. -/
  | operators (power : Power)
  /-- The other arm of a conditional. -/
  | otherwise
  /-- The parameters of a function. -/
  | parameters
  /-- Parameters behind commas. -/
  | moreParameters
  /-- The arguments of a call. -/
  | arguments
  /-- Arguments behind commas. -/
  | moreArguments
  /-- The semicolon of a statement. -/
  | semicolon
  /-- Statements, and a token of a kind that ends them. -/
  | statements (last : TokenKind)
deriving DecidableEq

/-- What is due behind the first token of an expression, the operators that may go on with it left
aside.  A number that cannot be held starts no expression. -/
def StartRule.opens? (token : Token) : StartRule → Option (List Due)
  | .ident | .boolean => some []
  | .integer => if (readInteger? token.lexeme).isSome then some [] else none
  | .unary => some [.operand .unary]
  | .grouped => some [.operand .lowest, .token .closeParen]
  | .conditional =>
      some [.token .openParen, .operand .lowest, .token .closeParen, .token .openCurly,
        .statements .closeCurly, .otherwise]
  | .function =>
      some [.token .openParen, .parameters, .token .closeParen, .token .openCurly,
        .statements .closeCurly]

/-- What is due behind a token that an expression starts with. -/
def Token.opens? (token : Token) : Option (List Due) :=
  (Grammar.standard.startRule token.kind).bind (StartRule.opens? token)

theorem Token.opens?_of_startRule_none {token : Token}
    (hnone : Grammar.standard.startRule token.kind = none) : token.opens? = none := by
  rw [opens?, hnone]
  rfl

theorem Token.opens?_of_startRule {token : Token} {rule : StartRule}
    (hrule : Grammar.standard.startRule token.kind = some rule) :
    token.opens? = rule.opens? token := by
  rw [opens?, hrule]
  rfl

/-- What is due behind the first token of a statement. -/
def StatementRule.opens? (token : Token) : StatementRule → Option (List Due)
  | .binding => some [.token .identifier, .token .assign, .operand .lowest, .semicolon]
  | .returning => some [.operand .lowest, .semicolon]
  | .expression => token.opens?.map fun more => more ++ [.operators .lowest, .semicolon]

/-- What is due behind an operator of a given power. -/
def OperatorRule.opens (power : Power) : OperatorRule → List Due
  | .binary => [.operand power]
  | .call => [.arguments, .token .closeParen]

namespace Due

/-- What is due in place of something once a token has taken it up.  There is nothing where the
token does not belong to it. -/
def take (token : Token) : Due → Option (List Due)
  | .token kind => if token.kind = kind then some [] else none
  | operand power => token.opens?.map fun more => more ++ [operators power]
  | operators power =>
      match Grammar.standard.operator token.kind with
      | none => none
      | some (strength, rule) =>
          if power < strength then some (rule.opens strength ++ [operators power]) else none
  | otherwise =>
      if token.kind = .kwElse then some [.token .openCurly, statements .closeCurly] else none
  | parameters => if token.kind = .identifier then some [moreParameters] else none
  | moreParameters =>
      if token.kind = .comma then some [.token .identifier, moreParameters] else none
  | arguments => token.opens?.map fun more => more ++ [operators .lowest, moreArguments]
  | moreArguments => if token.kind = .comma then some [operand .lowest, moreArguments] else none
  | semicolon => if token.kind = .semicolon then some [] else none
  | statements last =>
      if token.kind = last then some []
      else
        (((Grammar.standard.statementRule token.kind).getD .expression).opens? token).map
          fun more => more ++ [statements last]

/-- Whether something may be left out. -/
def isOptional : Due → Bool
  | .token _ | operand _ | statements _ => false
  | _ => true

end Due

/-- An operator that binds no more tightly than a power does not go on with an expression. -/
theorem Due.take_operators_of_le {token : Token} {power : Power}
    (hpower : Grammar.standard.power token.kind ≤ power) :
    (Due.operators power).take token = none := by
  rw [Due.take]
  split
  · rfl
  · next strength rule hoperator =>
      rw [Grammar.power, hoperator] at hpower
      exact if_neg (Nat.not_lt.2 hpower)

/-- What is due behind a token.  There is nothing where the token does not fit. -/
def shift : List Due → Token → Option (List Due)
  | [], _ => none
  | due :: rest, token =>
      match due.take token with
      | some more => some (more ++ rest)
      | none => if due.isOptional then shift rest token else none

/-- What is due behind tokens in a row. -/
def follow (stack : List Due) (tokens : List Token) : Option (List Due) :=
  tokens.foldlM shift stack

/-- What is due of a program at its start. -/
def programDue : List Due := [.statements .eof]

example : follow programDue [⟨.kwLet, "let"⟩, ⟨.identifier, "x"⟩] =
    some [.token .assign, .operand .lowest, .semicolon, .statements .eof] := by
  decide

section Shift

variable {due : Due} {stack rest more : List Due} {token : Token} {first second : List Token}

theorem shift_of_take (htake : due.take token = some more) :
    shift (due :: rest) token = some (more ++ rest) := by
  rw [shift, htake]

/-- Something that may be left out is left out where the token does not belong to it. -/
theorem shift_of_optional (htake : due.take token = none) (hoptional : due.isOptional = true) :
    shift (due :: rest) token = shift rest token := by
  rw [shift, htake]
  exact if_pos hoptional

theorem shift_of_not_optional (htake : due.take token = none) (hoptional : due.isOptional = false) :
    shift (due :: rest) token = none := by
  rw [shift, htake]
  exact if_neg (by rw [hoptional]; decide)

/-- An expression is due with its operators. -/
theorem shift_operand (power : Power) (rest : List Due) (token : Token) :
    shift (.operand power :: rest) token =
      token.opens?.map fun more => more ++ .operators power :: rest := by
  cases hopens : token.opens? with
  | none =>
      have htake : (Due.operand power).take token = none := by
        rw [Due.take, hopens]
        rfl
      exact shift_of_not_optional htake rfl
  | some more =>
      have htake : (Due.operand power).take token = some (more ++ [.operators power]) := by
        rw [Due.take, hopens]
        rfl
      rw [shift_of_take htake, List.append_assoc]
      rfl

theorem shift_token_of_eq {kind : TokenKind} (hkind : token.kind = kind) :
    shift (.token kind :: rest) token = some rest := by
  have htake : (Due.token kind).take token = some [] := if_pos hkind
  exact shift_of_take htake

theorem shift_token_of_ne {kind : TokenKind} (hkind : token.kind ≠ kind) :
    shift (.token kind :: rest) token = none := by
  have htake : (Due.token kind).take token = none := if_neg hkind
  exact shift_of_not_optional htake rfl

/-- A token that fits is taken up by what is due first, or that is left out. -/
theorem shift_eq_some_cases (hshift : shift (due :: rest) token = some stack) :
    (∃ more, due.take token = some more ∧ stack = more ++ rest) ∨
      due.isOptional = true ∧ shift rest token = some stack := by
  rw [shift] at hshift
  cases htake : due.take token with
  | some more =>
      rw [htake] at hshift
      exact Or.inl ⟨more, rfl, (Option.some.inj hshift).symm⟩
  | none =>
      rw [htake] at hshift
      cases hoptional : due.isOptional with
      | true => exact Or.inr ⟨rfl, by rwa [hoptional] at hshift⟩
      | false =>
          rw [hoptional] at hshift
          contradiction

theorem follow_cons (stack : List Due) (token : Token) (later : List Token) :
    follow stack (token :: later) = (shift stack token).bind fun next => follow next later :=
  List.foldlM_cons

theorem follow_append (stack : List Due) (first second : List Token) :
    follow stack (first ++ second) = (follow stack first).bind fun next => follow next second :=
  List.foldlM_append

theorem follow_singleton (stack : List Due) (token : Token) :
    follow stack [token] = shift stack token := by
  rw [follow_cons]
  cases shift stack token <;> rfl

/-- Tokens that do not fit do not fit with more behind them either. -/
theorem follow_append_eq_none (hfollow : follow stack first = none) :
    follow stack (first ++ second) = none := by
  rw [follow_append, hfollow]
  rfl

end Shift

/-- A token of a kind that is always spelled the same, or a name. -/
def TokenKind.sample : TokenKind → Token
  | identifier => ⟨identifier, "a"⟩
  | eof => .endOfInput
  | kind => ⟨kind, kind.name⟩

@[simp]
theorem TokenKind.sample_kind (kind : TokenKind) : kind.sample.kind = kind := by
  cases kind <;> rfl

/-- The kinds that can be due as single tokens. -/
def tokensDue : List TokenKind := [.identifier, .assign, .openParen, .closeParen, .openCurly]

theorem TokenKind.spelled_sample {kind : TokenKind} (hkind : kind ∈ tokensDue) :
    kind.sample.Spelled := by
  simp only [tokensDue, List.mem_cons, List.not_mem_nil, or_false] at hkind
  rcases hkind with rfl | hkind
  · exact ⟨rfl, by decide⟩
  · rcases hkind with rfl | rfl | rfl | rfl <;> exact Token.spelled_of_spelling? rfl

/-- The fewest tokens that make up what is due. -/
def Due.filling : Due → List Token
  | .token kind => [kind.sample]
  | operand _ => [TokenKind.identifier.sample]
  | statements last => [last.sample]
  | _ => []

/-- Tokens that make up all that is due. -/
def completion (stack : List Due) : List Token :=
  stack.flatMap Due.filling

/-- The kinds that come behind an expression, a parameter or a statement that ends. -/
def closers : List TokenKind := [.closeParen, .closeCurly, .eof]

/-- The completion of what is due starts with a token that ends what is in front of it. -/
def Closed (stack : List Due) : Prop :=
  ∃ kind ∈ closers, ∃ later, completion stack = kind.sample :: later

/-- What can be due behind tokens that fit: in the end a program, and behind each expression and all
that may be left out something that ends it. -/
inductive Completable : List Due → Prop
  | program : Completable programDue
  | block {rest : List Due} : Completable rest → Completable (.statements .closeCurly :: rest)
  | token {kind : TokenKind} {rest : List Due} :
      kind ∈ tokensDue → Completable rest → Completable (.token kind :: rest)
  | operand {power : Power} {rest : List Due} :
      Closed rest → Completable rest → Completable (.operand power :: rest)
  | optional {due : Due} {rest : List Due} :
      due.isOptional = true → Closed rest → Completable rest → Completable (due :: rest)

theorem Due.filling_of_isOptional {due : Due} (hoptional : due.isOptional = true) :
    due.filling = [] := by
  cases due <;> first | rfl | contradiction

/-- What ends an expression belongs to nothing that may be left out. -/
theorem Due.take_sample_of_isOptional {due : Due} {kind : TokenKind}
    (hoptional : due.isOptional = true) (hkind : kind ∈ closers) :
    due.take kind.sample = none := by
  simp only [closers, List.mem_cons, List.not_mem_nil, or_false] at hkind
  cases due <;> first | contradiction | (rcases hkind with rfl | rfl | rfl <;> rfl)

theorem Closed.of_token {kind : TokenKind} (hkind : kind ∈ closers) (rest : List Due) :
    Closed (.token kind :: rest) :=
  ⟨kind, hkind, completion rest, rfl⟩

theorem Closed.of_statements {last : TokenKind} (hlast : last ∈ closers) (rest : List Due) :
    Closed (.statements last :: rest) :=
  ⟨last, hlast, completion rest, rfl⟩

theorem Closed.optional {due : Due} {rest : List Due} (hclosed : Closed rest)
    (hoptional : due.isOptional = true) : Closed (due :: rest) := by
  obtain ⟨kind, hkind, later, hlater⟩ := hclosed
  refine ⟨kind, hkind, later, ?_⟩
  rw [completion, List.flatMap_cons, Due.filling_of_isOptional hoptional]
  exact hlater

namespace Completable

variable {stack rest more : List Due} {token : Token} {power : Power} {last : TokenKind}

/-- What may be left out does not get in the way of a completion. -/
theorem follow_optional {due : Due} (hoptional : due.isOptional = true) (hclosed : Closed rest) :
    follow (due :: rest) (completion rest) = follow rest (completion rest) := by
  obtain ⟨kind, hkind, later, hlater⟩ := hclosed
  have htake := Due.take_sample_of_isOptional hoptional hkind
  rw [hlater, follow_cons, follow_cons, shift_of_optional htake hoptional]

/-- The completion of what is due leaves nothing due. -/
theorem follow_completion (hstack : Completable stack) :
    follow stack (completion stack) = some [] := by
  induction hstack with
  | program => rfl
  | @block rest _ ih =>
      have hshift : shift (.statements .closeCurly :: rest) TokenKind.closeCurly.sample =
          some rest :=
        rfl
      rw [completion, List.flatMap_cons, Due.filling, List.singleton_append, follow_cons, hshift]
      exact ih
  | @token kind rest _ _ ih =>
      have hshift : shift (.token kind :: rest) kind.sample = some rest :=
        shift_token_of_eq kind.sample_kind
      rw [completion, List.flatMap_cons, Due.filling, List.singleton_append, follow_cons, hshift]
      exact ih
  | @operand power rest hclosed _ ih =>
      have hshift : shift (.operand power :: rest) TokenKind.identifier.sample =
          some (.operators power :: rest) :=
        rfl
      rw [completion, List.flatMap_cons, Due.filling, List.singleton_append, follow_cons, hshift]
      exact (follow_optional rfl hclosed).trans ih
  | @optional due rest hoptional hclosed _ ih =>
      rw [completion, List.flatMap_cons, Due.filling_of_isOptional hoptional]
      exact (follow_optional hoptional hclosed).trans ih

/-- The completion of what is due is tokens that are spelled right, and then the end of input. -/
theorem exists_spelled (hstack : Completable stack) :
    ∃ tokens, completion stack = tokens ++ [.endOfInput] ∧ ∀ token ∈ tokens, token.Spelled := by
  -- One token more that is spelled right.
  have hcons {first : Token} {rest : List Due} (hfirst : first.Spelled)
      (hrest : ∃ tokens, completion rest = tokens ++ [.endOfInput] ∧
        ∀ token ∈ tokens, token.Spelled) :
      ∃ tokens, first :: completion rest = tokens ++ [.endOfInput] ∧
        ∀ token ∈ tokens, token.Spelled := by
    obtain ⟨tokens, htokens, hspelled⟩ := hrest
    exact ⟨first :: tokens, by rw [htokens, List.cons_append],
      List.forall_mem_cons.2 ⟨hfirst, hspelled⟩⟩
  induction hstack with
  | program => exact ⟨[], rfl, fun _ => False.elim ∘ List.not_mem_nil⟩
  | block _ ih => exact hcons (Token.spelled_of_spelling? rfl) ih
  | token hkind _ ih => exact hcons (TokenKind.spelled_sample hkind) ih
  | operand _ _ ih => exact hcons (TokenKind.spelled_sample (by decide)) ih
  | optional hoptional _ _ ih =>
      rw [completion, List.flatMap_cons, Due.filling_of_isOptional hoptional]
      exact ih

/-- What the first token of an expression leaves due can be completed. -/
theorem opens (hopens : token.opens? = some more) (hclosed : Closed rest)
    (hrest : Completable rest) : Completable (more ++ rest) := by
  have hparen : Closed (.token .closeParen :: rest) := .of_token (by decide) rest
  have hblock {later : List Due} (hlater : Completable later) :
      Completable (.token .closeParen :: .token .openCurly :: .statements .closeCurly :: later) :=
    .token (by decide) (.token (by decide) (.block hlater))
  obtain ⟨rule, -, hrule⟩ := Option.bind_eq_some_iff.1 hopens
  cases rule with
  | ident | boolean =>
      obtain rfl := Option.some.inj hrule
      exact hrest
  | integer =>
      obtain ⟨-, ⟨⟩⟩ := Option.ite_none_right_eq_some.1 hrule
      exact hrest
  | unary =>
      obtain rfl := Option.some.inj hrule
      exact .operand hclosed hrest
  | grouped =>
      obtain rfl := Option.some.inj hrule
      exact .operand hparen (.token (by decide) hrest)
  | conditional =>
      obtain rfl := Option.some.inj hrule
      exact .token (by decide) (.operand (.of_token (by decide) _)
        (hblock (.optional rfl hclosed hrest)))
  | function =>
      obtain rfl := Option.some.inj hrule
      exact .token (by decide) (.optional rfl (.of_token (by decide) _) (hblock hrest))

/-- What a token of a statement leaves due can be completed. -/
theorem take_statements (htake : (Due.statements last).take token = some more)
    (hother : token.kind ≠ last) (hlast : last ∈ closers)
    (hrest : Completable (.statements last :: rest)) : Completable (more ++ rest) := by
  have hclosed : Closed (.statements last :: rest) := .of_statements hlast rest
  have hsemicolon : Closed (.semicolon :: .statements last :: rest) := hclosed.optional rfl
  have hbehind : Completable (.semicolon :: .statements last :: rest) :=
    .optional rfl hclosed hrest
  have hvalue : Completable (.operand .lowest :: .semicolon :: .statements last :: rest) :=
    .operand hsemicolon hbehind
  rw [Due.take, if_neg hother] at htake
  obtain ⟨begun, hbegun, rfl⟩ := Option.map_eq_some_iff.1 htake
  rw [List.append_assoc]
  cases hrule : (Grammar.standard.statementRule token.kind).getD .expression with
  | binding =>
      rw [hrule] at hbegun
      obtain rfl := Option.some.inj hbegun
      exact .token (by decide) (.token (by decide) hvalue)
  | returning =>
      rw [hrule] at hbegun
      obtain rfl := Option.some.inj hbegun
      exact hvalue
  | expression =>
      rw [hrule] at hbegun
      obtain ⟨opened, hopened, rfl⟩ := Option.map_eq_some_iff.1 hbegun
      rw [List.append_assoc]
      exact opens hopened (hsemicolon.optional rfl) (.optional rfl hsemicolon hbehind)

/-- What a token leaves due that belongs to something optional can be completed. -/
theorem take_optional {due : Due} (htake : due.take token = some more)
    (hoptional : due.isOptional = true) (hclosed : Closed rest) (hrest : Completable rest) :
    Completable (more ++ rest) := by
  have hagain {other : Due} (hother : other.isOptional = true) : Completable (other :: rest) :=
    .optional hother hclosed hrest
  cases due with
  | token | operand | statements => contradiction
  | operators power =>
      have hbehind : Completable (.operators power :: rest) := hagain rfl
      rw [Due.take] at htake
      split at htake
      · contradiction
      · next strength rule hoperator =>
          split at htake
          · obtain rfl := Option.some.inj htake
            cases rule with
            | binary => exact .operand (hclosed.optional rfl) hbehind
            | call =>
                exact .optional rfl (.of_token (by decide) _) (.token (by decide) hbehind)
          · contradiction
  | otherwise =>
      obtain ⟨-, ⟨⟩⟩ := Option.ite_none_right_eq_some.1 htake
      exact .token (by decide) (.block hrest)
  | parameters =>
      obtain ⟨-, ⟨⟩⟩ := Option.ite_none_right_eq_some.1 htake
      exact hagain rfl
  | moreParameters =>
      obtain ⟨-, ⟨⟩⟩ := Option.ite_none_right_eq_some.1 htake
      exact .token (by decide) (hagain rfl)
  | arguments =>
      obtain ⟨opened, hopened, rfl⟩ := Option.map_eq_some_iff.1 htake
      have hmore : Closed (.moreArguments :: rest) := hclosed.optional rfl
      rw [List.append_assoc]
      exact opens hopened (hmore.optional rfl) (.optional rfl hmore (hagain rfl))
  | moreArguments =>
      obtain ⟨-, ⟨⟩⟩ := Option.ite_none_right_eq_some.1 htake
      exact .operand (hclosed.optional rfl) (hagain rfl)
  | semicolon =>
      obtain ⟨-, ⟨⟩⟩ := Option.ite_none_right_eq_some.1 htake
      exact hrest

/-- What is due behind a token that fits can be completed, up to the end of input. -/
theorem shift (hstack : Completable stack) (hend : token.kind ≠ .eof)
    (hshift : shift stack token = some more) : Completable more := by
  induction hstack with
  | program =>
      rcases shift_eq_some_cases hshift with ⟨taken, htake, rfl⟩ | ⟨hoptional, -⟩
      · exact take_statements htake hend (by decide) .program
      · contradiction
  | @block rest hrest ih =>
      rcases shift_eq_some_cases hshift with ⟨taken, htake, rfl⟩ | ⟨hoptional, -⟩
      · by_cases hlast : token.kind = .closeCurly
        · rw [Due.take, if_pos hlast] at htake
          obtain rfl := Option.some.inj htake
          exact hrest
        · exact take_statements htake hlast (by decide) (.block hrest)
      · contradiction
  | token hkind hrest ih =>
      rcases shift_eq_some_cases hshift with ⟨taken, htake, rfl⟩ | ⟨hoptional, -⟩
      · obtain ⟨-, ⟨⟩⟩ := Option.ite_none_right_eq_some.1 htake
        exact hrest
      · contradiction
  | operand hclosed hrest ih =>
      rcases shift_eq_some_cases hshift with ⟨taken, htake, rfl⟩ | ⟨hoptional, -⟩
      · obtain ⟨opened, hopened, rfl⟩ := Option.map_eq_some_iff.1 htake
        rw [List.append_assoc]
        exact opens hopened (hclosed.optional rfl) (.optional rfl hclosed hrest)
      · contradiction
  | optional hoptional hclosed hrest ih =>
      rcases shift_eq_some_cases hshift with ⟨taken, htake, rfl⟩ | ⟨-, hskip⟩
      · exact take_optional htake hoptional hclosed hrest
      · exact ih hskip

/-- What is due behind tokens that fit can be completed, up to the end of input. -/
theorem follow {tokens : List Token} (hstack : Completable stack)
    (hopen : ∀ token ∈ tokens, token.kind ≠ .eof) (hfollow : follow stack tokens = some more) :
    Completable more := by
  induction tokens generalizing stack with
  | nil =>
      obtain rfl := Option.some.inj hfollow
      exact hstack
  | cons token later ih =>
      obtain ⟨htoken, hlater⟩ := List.forall_mem_cons.1 hopen
      rw [follow_cons] at hfollow
      obtain ⟨next, hshift, hnext⟩ := Option.bind_eq_some_iff.1 hfollow
      exact ih (hstack.shift htoken hshift) hlater hnext

end Completable

end ExprLang
