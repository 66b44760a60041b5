/-
No two programs have the same text.  The tokens of a tree followed by other tokens tell where the
tree ends, as long as what follows could not be part of it.  Only calls and the other arm of a
conditional stand behind what they belong to: of two expressions that start with the same tokens one
might be the callee of the other, so expressions are compared with some of their calls taken off.
-/
import ExprLang.Proofs.RenderedText
import ExprLang.Tree.Equality

namespace ExprLang

theorem startsWithout_cons {kinds : List TokenKind} {token : Token} (hkind : token.kind ∉ kinds)
    (rest : List Token) : StartsWithout kinds (token :: rest) := by
  intro first hfirst
  rwa [← Option.some.inj hfirst]

/-- What follows is nothing, or it starts with a token of the kind. -/
def EndsWith (close : TokenKind) (rest : List Token) : Prop :=
  ∀ token ∈ rest.head?, token.kind = close

theorem EndsWith.startsWithout {close : TokenKind} {kinds : List TokenKind} {rest : List Token}
    (hrest : EndsWith close rest) (hclose : close ∉ kinds) : StartsWithout kinds rest := by
  intro token htoken
  rwa [hrest token htoken]

theorem endsWith_cons {close : TokenKind} {token : Token} (hkind : token.kind = close)
    (rest : List Token) : EndsWith close (token :: rest) := by
  intro first hfirst
  rwa [← Option.some.inj hfirst]

/-- Two items whose tokens tell them apart and tell where they end, unless a token of the kinds
follows.  They are compared by their shape. -/
def CancelBefore {α β : Type} (kinds : List TokenKind) (tokens : α → List Token) (shape : α → β)
    (left right : α) : Prop :=
  ∀ r s, StartsWithout kinds r → StartsWithout kinds s → tokens left ++ r = tokens right ++ s →
    shape left = shape right ∧ r = s

section Separated

variable {α β : Type} {tokens : α → List Token} {shape : α → β} {mark : Token} {close : TokenKind}
  {kinds : List TokenKind} {lefts rights : List α} {r s : List Token}

/-- Behind an item of a list another mark follows, or the end of the list. -/
theorem startsWithout_marked (hmark : mark.kind ∉ kinds) (hclose : close ∉ kinds)
    (hrest : EndsWith close r) (items : List (List Token)) :
    StartsWithout kinds (items.flatMap (mark :: ·) ++ r) := by
  cases items with
  | nil => exact hrest.startsWithout hclose
  | cons first later => exact startsWithout_cons hmark _

/-- Lists of items with a mark in front of each. -/
theorem marked_cancel (hmark : mark.kind ∉ kinds) (hclose : close ∉ kinds)
    (hdistinct : mark.kind ≠ close)
    (hitems : ∀ left ∈ lefts, ∀ right ∈ rights, CancelBefore kinds tokens shape left right)
    (hr : EndsWith close r) (hs : EndsWith close s)
    (heq : (lefts.map tokens).flatMap (mark :: ·) ++ r =
      (rights.map tokens).flatMap (mark :: ·) ++ s) :
    lefts.map shape = rights.map shape ∧ r = s := by
  induction lefts generalizing rights with
  | nil =>
      cases rights with
      | nil => exact ⟨rfl, heq⟩
      | cons right rights => exact absurd (hr mark (by rw [show r = _ from heq]; rfl)) hdistinct
  | cons left lefts ih =>
      cases rights with
      | nil => exact absurd (hs mark (by rw [← show _ = s from heq]; rfl)) hdistinct
      | cons right rights =>
          simp only [List.map_cons, List.flatMap_cons, List.cons_append, List.append_assoc,
            List.cons.injEq, true_and] at heq
          obtain ⟨hfirst, hrest⟩ := hitems left List.mem_cons_self right List.mem_cons_self _ _
            (startsWithout_marked hmark hclose hr _) (startsWithout_marked hmark hclose hs _) heq
          obtain ⟨hlater, hend⟩ := ih (fun item hitem other hother =>
            hitems item (List.mem_cons_of_mem _ hitem) other (List.mem_cons_of_mem _ hother)) hrest
          exact ⟨by rw [List.map_cons, List.map_cons, hfirst, hlater], hend⟩

/-- An item does not look like the end of a list. -/
def Opens (tokens : α → List Token) (close : TokenKind) (item : α) : Prop :=
  ∃ token later, tokens item = token :: later ∧ token.kind ≠ close

/-- What starts with an item is not the end of a list. -/
theorem Opens.not_endsWith {item : α} (hopens : Opens tokens close item) (rest : List Token) :
    ¬ EndsWith close (tokens item ++ rest) := by
  obtain ⟨token, later, htokens, hkind⟩ := hopens
  rw [htokens]
  exact fun hend => hkind (hend token rfl)

/-- Lists of items with a mark between neighbours. -/
theorem separated_cancel (hmark : mark.kind ∉ kinds) (hclose : close ∉ kinds)
    (hdistinct : mark.kind ≠ close) (hlefts : ∀ item ∈ lefts, Opens tokens close item)
    (hrights : ∀ item ∈ rights, Opens tokens close item)
    (hitems : ∀ left ∈ lefts, ∀ right ∈ rights, CancelBefore kinds tokens shape left right)
    (hr : EndsWith close r) (hs : EndsWith close s)
    (heq : separated mark (lefts.map tokens) ++ r = separated mark (rights.map tokens) ++ s) :
    lefts.map shape = rights.map shape ∧ r = s := by
  cases lefts with
  | nil =>
      cases rights with
      | nil => exact ⟨rfl, heq⟩
      | cons right rights =>
          rw [List.map_cons, separated_cons, List.append_assoc] at heq
          rw [show r = _ from heq] at hr
          exact absurd hr ((hrights right List.mem_cons_self).not_endsWith _)
  | cons left lefts =>
      rw [List.map_cons, separated_cons, List.append_assoc] at heq
      cases rights with
      | nil =>
          rw [← show _ = s from heq] at hs
          exact absurd hs ((hlefts left List.mem_cons_self).not_endsWith _)
      | cons right rights =>
          rw [List.map_cons, separated_cons, List.append_assoc] at heq
          obtain ⟨hfirst, hrest⟩ := hitems left List.mem_cons_self right List.mem_cons_self _ _
            (startsWithout_marked hmark hclose hr _) (startsWithout_marked hmark hclose hs _) heq
          obtain ⟨hlater, hend⟩ := marked_cancel hmark hclose hdistinct
            (fun item hitem other hother =>
              hitems item (List.mem_cons_of_mem _ hitem) other (List.mem_cons_of_mem _ hother))
            hr hs hrest
          exact ⟨by rw [List.map_cons, List.map_cons, hfirst, hlater], hend⟩

/-- An item that may be missing, where no item looks like what may follow. -/
theorem optional_cancel {left right : Option α}
    (hleft : ∀ item ∈ left, ∀ rest, ¬ StartsWithout kinds (tokens item ++ rest))
    (hright : ∀ item ∈ right, ∀ rest, ¬ StartsWithout kinds (tokens item ++ rest))
    (hitems : ∀ item ∈ left, ∀ other ∈ right, CancelBefore kinds tokens shape item other) :
    CancelBefore kinds (fun item => item.elim [] tokens) (Option.map shape) left right := by
  intro r s hr hs heq
  cases left with
  | none =>
      cases right with
      | none => exact ⟨rfl, heq⟩
      | some other =>
          rw [show r = tokens other ++ s from heq] at hr
          exact absurd hr (hright other rfl s)
  | some item =>
      cases right with
      | none =>
          rw [← show tokens item ++ r = s from heq] at hs
          exact absurd hs (hleft item rfl r)
      | some other =>
          obtain ⟨hshape, hrest⟩ := hitems item rfl other rfl r s hr hs heq
          exact ⟨congrArg some hshape, hrest⟩

end Separated

namespace Expr

/-- How many calls are made of what an expression starts with, one of the other. -/
def calls : Expr → Nat
  | .call _ callee _ => callee.calls + 1
  | _ => 0

/-- What is left of an expression with so many of these calls taken off. -/
def stem : Expr → Nat → Expr
  | .call _ callee _, count + 1 => callee.stem count
  | tree, _ => tree

@[simp]
theorem stem_zero (tree : Expr) : tree.stem 0 = tree := by
  cases tree <;> rfl

theorem calls_stem : ∀ (tree : Expr) (count : Nat), count ≤ tree.calls →
    (tree.stem count).calls = tree.calls - count
  | tree, 0, _ => by rw [stem_zero, Nat.sub_zero]
  | .call _ callee _, count + 1, hcount => by
      have hcallee := callee.calls_stem count (Nat.le_of_succ_le_succ hcount)
      rw [stem, calls, Nat.add_sub_add_right, hcallee]
  | .ident _, _ + 1, hcount | .integer _ _, _ + 1, hcount | .boolean _ _, _ + 1, hcount
  | .unary _ _ _, _ + 1, hcount | .binary _ _ _ _, _ + 1, hcount
  | .conditional _ _ _ _, _ + 1, hcount | .function _ _ _, _ + 1, hcount =>
      absurd hcount (Nat.not_succ_le_zero _)

theorem Coherent.stem : ∀ {tree : Expr} (count : Nat), tree.Coherent → (tree.stem count).Coherent
  | .call _ _ _, count + 1, ⟨_, hcallee, _⟩ => hcallee.stem count
  | .call _ _ _, 0, hcoherent | .ident _, _, hcoherent | .integer _ _, _, hcoherent
  | .boolean _ _, _, hcoherent | .unary _ _ _, _, hcoherent | .binary _ _ _ _, _, hcoherent
  | .conditional _ _ _ _, _, hcoherent | .function _ _ _, _, hcoherent => hcoherent

/-- Behind what is left of an expression with some calls taken off, the first of these opens. -/
theorem exists_tokens_eq_stem : ∀ (tree : Expr) (count : Nat), tree.Coherent → count < tree.calls →
    ∃ later, tree.tokens = (tree.stem (count + 1)).tokens ++ ⟨.openParen, "("⟩ :: later
  | .call _ callee _, 0, ⟨htoken, _, _⟩, _ => by
      rw [stem, stem_zero, tokens, htoken]
      exact ⟨_, rfl⟩
  | .call _ callee _, count + 1, ⟨_, hcallee, _⟩, hcount => by
      obtain ⟨later, hlater⟩ :=
        callee.exists_tokens_eq_stem count hcallee (Nat.lt_of_succ_lt_succ hcount)
      rw [tokens, stem, hlater, List.append_assoc]
      exact ⟨_, rfl⟩
  | .ident _, _, _, hcount | .integer _ _, _, _, hcount | .boolean _ _, _, _, hcount
  | .unary _ _ _, _, _, hcount | .binary _ _ _ _, _, _, hcount
  | .conditional _ _ _ _, _, _, hcount | .function _ _ _, _, _, hcount =>
      absurd hcount (Nat.not_lt_zero _)

/-- No operator is the first token of a text. -/
theorem firstToken_kind_mem : ∀ tree : Expr, tree.Coherent → tree.firstToken.kind ∈
    [.identifier, .integer, .kwTrue, .kwFalse, .openParen, .kwIf, .kwFn]
  | .ident id, hcoherent => by
      rw [firstToken, Ident.WellFormed.kind_eq hcoherent]
      decide
  | .integer token _, ⟨hkind, _⟩ => by
      rw [firstToken, hkind]
      decide
  | .boolean token value, hcoherent => by
      rw [Coherent] at hcoherent
      rw [firstToken, hcoherent]
      cases value <;> decide
  | .unary _ _ _, _ | .binary _ _ _ _, _ => by
      rw [firstToken]
      decide
  | .conditional _ _ _ none, ⟨htoken, _⟩ | .conditional _ _ _ (some _), ⟨htoken, _⟩
  | .function _ _ _, ⟨htoken, _⟩ => by
      rw [firstToken, htoken]
      decide
  | .call _ callee _, ⟨_, hcallee, _⟩ => callee.firstToken_kind_mem hcallee

theorem firstToken_kind_mem_starters {tree : Expr} (hcoherent : tree.Coherent) :
    tree.firstToken.kind ∈ starters := by
  have hkind := tree.firstToken_kind_mem hcoherent
  generalize tree.firstToken.kind = kind at hkind ⊢
  revert hkind
  revert kind
  decide

theorem firstToken_canonical : ∀ tree : Expr, tree.canonical.firstToken = tree.firstToken
  | .ident _ | .integer _ _ | .boolean _ _ | .unary _ _ _ | .binary _ _ _ _ | .function _ _ _
  | .conditional _ _ _ none | .conditional _ _ _ (some _) => rfl
  | .call _ callee _ => callee.firstToken_canonical

theorem opens {tree : Expr} (hcoherent : tree.Coherent) : Opens tokens .closeParen tree := by
  obtain ⟨later, htokens⟩ := tree.exists_tokens_eq_cons
  refine ⟨_, later, htokens, fun hkind => ?_⟩
  have hfirst := tree.firstToken_kind_mem hcoherent
  rw [hkind] at hfirst
  contradiction

/-- What an expression is, the calls that are made of it left aside. -/
inductive Form
  | ident
  | integer
  | boolean
  | unary
  | binary
  | conditional
  | function

def form : Expr → Form
  | .ident _ => .ident
  | .integer _ _ => .integer
  | .boolean _ _ => .boolean
  | .unary _ _ _ => .unary
  | .binary _ _ _ _ => .binary
  | .conditional _ _ _ _ => .conditional
  | .function _ _ _ => .function
  | .call _ callee _ => callee.form

/-- The form of an expression by the first two kinds of its tokens. -/
def formOf : List TokenKind → Option Form
  | .identifier :: _ => some .ident
  | .integer :: _ => some .integer
  | .kwTrue :: _ | .kwFalse :: _ => some .boolean
  | .openParen :: .minus :: _ | .openParen :: .bang :: _ => some .unary
  | .openParen :: _ => some .binary
  | .kwIf :: _ => some .conditional
  | .kwFn :: _ => some .function
  | _ => none

theorem formOf_binary {kind : TokenKind} (hminus : kind ≠ .minus) (hbang : kind ≠ .bang)
    (rest : List TokenKind) : formOf (.openParen :: kind :: rest) = some .binary := by
  cases kind <;> first | rfl | contradiction

/-- The first two tokens tell the form of an expression, whatever is behind it. -/
theorem formOf_tokens : ∀ tree : Expr, tree.Coherent → ∀ rest,
    formOf ((tree.tokens ++ rest).map Token.kind) = some tree.form
  | .ident id, hcoherent, rest => by
      rw [tokens, List.singleton_append, List.map_cons, Ident.WellFormed.kind_eq hcoherent]
      rfl
  | .integer token _, ⟨hkind, _⟩, rest => by
      rw [tokens, List.singleton_append, List.map_cons, hkind]
      rfl
  | .boolean token value, hcoherent, rest => by
      rw [Coherent] at hcoherent
      rw [tokens, hcoherent]
      cases value <;> rfl
  | .unary token _ operand, ⟨htoken, _⟩, rest => by
      rcases htoken with rfl | rfl
      · rfl
      · rfl
  | .binary token _ left right, ⟨_, _, _, hleft, _⟩, rest => by
      obtain ⟨later, htokens⟩ := left.exists_tokens_eq_cons
      have hkind := left.firstToken_kind_mem hleft
      rw [tokens, htokens]
      refine formOf_binary ?_ ?_ _
      · intro hminus
        rw [hminus] at hkind
        contradiction
      · intro hbang
        rw [hbang] at hkind
        contradiction
  | .conditional _ _ _ none, ⟨htoken, _⟩, rest | .conditional _ _ _ (some _), ⟨htoken, _⟩, rest
  | .function _ _ _, ⟨htoken, _⟩, rest => by
      rw [tokens, htoken]
      rfl
  | .call _ callee _, ⟨_, hcallee, _⟩, rest => by
      rw [tokens, List.append_assoc]
      exact callee.formOf_tokens hcallee _

/-- An expression with any number of its calls taken off, and another one that makes as many calls:
their tokens tell them apart and tell where they end, unless the other arm of a conditional
follows. -/
def Cancels (left : Expr) : Prop :=
  ∀ (count : Nat) (right : Expr), right.Coherent → (left.stem count).calls = right.calls →
    CancelBefore [.kwElse] tokens canonical (left.stem count) right

theorem startsWithout_call (rest : List Token) :
    StartsWithout [.kwElse] (⟨.openParen, "("⟩ :: rest) :=
  startsWithout_cons (by decide) rest

/-- Where no call follows either, the two make as many calls: the one that made more would go on
with a call. -/
theorem Cancels.cancelBefore {left right : Expr} (hcancels : left.Cancels) (hleft : left.Coherent)
    (hright : right.Coherent) : CancelBefore [.openParen, .kwElse] tokens canonical left right := by
  intro r s hr hs heq
  have helse {rest : List Token} (hrest : StartsWithout [.openParen, .kwElse] rest) :
      StartsWithout [.kwElse] rest := hrest.of_cons
  have hcall (later : List Token) :
      ¬ StartsWithout [.openParen, .kwElse] (⟨.openParen, "("⟩ :: later) :=
    fun hstarts => hstarts _ rfl List.mem_cons_self
  rcases Nat.lt_trichotomy left.calls right.calls with hless | hsame | hmore
  · obtain ⟨count, hcount⟩ := Nat.exists_eq_add_of_lt hless
    obtain ⟨later, hlater⟩ := right.exists_tokens_eq_stem count hright (by omega)
    have hstem : (left.stem 0).calls = (right.stem (count + 1)).calls := by
      rw [stem_zero, calls_stem right (count + 1) (by omega)]
      omega
    have hboth := hcancels 0 _ (hright.stem (count + 1)) hstem r _ (helse hr)
      (startsWithout_call (later ++ s))
    rw [stem_zero] at hboth
    rw [hlater, List.append_assoc] at heq
    rw [(hboth heq).2] at hr
    exact absurd hr (hcall _)
  · have hstem : (left.stem 0).calls = right.calls := by rwa [stem_zero]
    have hboth := hcancels 0 right hright hstem r s (helse hr) (helse hs)
    rw [stem_zero] at hboth
    exact hboth heq
  · obtain ⟨count, hcount⟩ := Nat.exists_eq_add_of_lt hmore
    obtain ⟨later, hlater⟩ := left.exists_tokens_eq_stem count hleft (by omega)
    have hstem : (left.stem (count + 1)).calls = right.calls := by
      rw [calls_stem left (count + 1) (by omega)]
      omega
    have hboth := hcancels (count + 1) right hright hstem _ s
      (startsWithout_call (later ++ r)) (helse hs)
    rw [hlater, List.append_assoc] at heq
    rw [← (hboth heq).2] at hs
    exact absurd hs (hcall _)

/-- An expression in front of a token that cannot be part of it. -/
theorem Cancels.before_mark {left right : Expr} (hcancels : left.Cancels) (hleft : left.Coherent)
    (hright : right.Coherent) {mark other : Token} {r s : List Token}
    (hmark : mark.kind ∉ [.openParen, .kwElse]) (hother : other.kind ∉ [.openParen, .kwElse])
    (heq : left.tokens ++ mark :: r = right.tokens ++ other :: s) :
    left.canonical = right.canonical ∧ mark = other ∧ r = s := by
  obtain ⟨htree, hrest⟩ := hcancels.cancelBefore hleft hright _ _ (startsWithout_cons hmark r)
    (startsWithout_cons hother s) heq
  exact ⟨htree, List.cons.inj hrest⟩

/-- An expression that is no call is compared with those of its form. -/
theorem Cancels.of_form {left : Expr} (hleft : left.Coherent) (hcalls : left.calls = 0)
    (hform : ∀ right : Expr, right.Coherent → right.calls = 0 → left.form = right.form →
      CancelBefore [.kwElse] tokens canonical left right) : left.Cancels := by
  intro count right hright hsame r s hr hs heq
  have hstem : left.stem count = left := by
    cases left with
    | call _ _ _ => contradiction
    | _ => rfl
  rw [hstem] at hsame heq ⊢
  have hforms : some left.form = some right.form := by
    rw [← left.formOf_tokens hleft r, ← right.formOf_tokens hright s, heq]
  exact hform right hright (hsame.symm.trans hcalls) (Option.some.inj hforms) r s hr hs heq

end Expr

/-- Two blocks tell by their tokens apart and where they end, whatever follows. -/
def Block.Cancels (left : Block) : Prop :=
  ∀ right : Block, right.Coherent → CancelBefore [] tokens canonical left right

theorem startsWithout_nil (rest : List Token) : StartsWithout [] rest :=
  fun _ _ => List.not_mem_nil

theorem Expr.canonicalEach_eq_map (trees : List Expr) :
    Expr.canonicalEach trees = trees.map Expr.canonical := by
  induction trees with
  | nil => rfl
  | cons first rest ih => rw [Expr.canonicalEach, ih, List.map_cons]

theorem Stmt.canonicalEach_eq_map (trees : List Stmt) :
    Stmt.canonicalEach trees = trees.map Stmt.canonical := by
  induction trees with
  | nil => rfl
  | cons first rest ih => rw [Stmt.canonicalEach, ih, List.map_cons]

theorem Stratum.not_mem_of_mem_operators {stratum : Stratum} {kind : TokenKind}
    (hkind : kind ∈ stratum.operators) : kind ∉ [.openParen, .kwElse] := by
  revert hkind
  cases stratum <;> (revert kind; decide)

namespace Expr

section Parts

variable {token : Token} {operator : String} {operand left right condition callee : Expr}
  {consequent body : Block} {alternative : Option Block} {parameters : List Ident}
  {arguments : List Expr}

theorem cancels_ident {id : Ident} (hcoherent : (Expr.ident id).Coherent) :
    (Expr.ident id).Cancels := by
  refine .of_form hcoherent rfl fun other hother hcalls hform r s _ _ heq => ?_
  cases other with
  | ident name =>
      obtain ⟨htoken, hrest⟩ := List.cons.inj heq
      rw [Ident.WellFormed.eq_mk hcoherent, htoken, ← Ident.WellFormed.eq_mk hother]
      exact ⟨rfl, hrest⟩
  | _ => contradiction

theorem cancels_integer {value : Int64} (hcoherent : (Expr.integer token value).Coherent) :
    (Expr.integer token value).Cancels := by
  refine .of_form hcoherent rfl fun other hother hcalls hform r s _ _ heq => ?_
  cases other with
  | integer number result =>
      obtain ⟨htoken, hrest⟩ := List.cons.inj heq
      obtain ⟨-, -, -, rfl⟩ := hcoherent
      obtain ⟨-, -, -, rfl⟩ := hother
      rw [htoken]
      exact ⟨rfl, hrest⟩
  | _ => contradiction

theorem cancels_boolean {value : Bool} (hcoherent : (Expr.boolean token value).Coherent) :
    (Expr.boolean token value).Cancels := by
  refine .of_form hcoherent rfl fun other hother hcalls hform r s _ _ heq => ?_
  cases other with
  | boolean word holds =>
      obtain ⟨htoken, hrest⟩ := List.cons.inj heq
      rw [Coherent] at hcoherent hother
      have hvalue : value = holds := by
        rw [hcoherent, hother] at htoken
        cases value <;> cases holds <;> first | rfl | contradiction
      rw [htoken, hvalue]
      exact ⟨rfl, hrest⟩
  | _ => contradiction

theorem cancels_unary (hcoherent : (Expr.unary token operator operand).Coherent)
    (hoperand : operand.Cancels) : (Expr.unary token operator operand).Cancels := by
  refine .of_form hcoherent rfl fun other hother hcalls hform r s _ _ heq => ?_
  cases other with
  | unary sign name tree =>
      obtain ⟨-, rfl, hleft⟩ := hcoherent
      obtain ⟨-, rfl, hright⟩ := hother
      simp only [tokens, List.cons_append, List.append_assoc, List.cons.injEq, true_and,
        List.nil_append] at heq
      obtain ⟨htoken, heq⟩ := heq
      obtain ⟨htree, -, hrest⟩ := hoperand.before_mark hleft hright (by decide) (by decide) heq
      rw [canonical, canonical, htoken, htree]
      exact ⟨rfl, hrest⟩
  | _ => contradiction

theorem cancels_binary (hcoherent : (Expr.binary token operator left right).Coherent)
    (hleft : left.Cancels) (hright : right.Cancels) :
    (Expr.binary token operator left right).Cancels := by
  refine .of_form hcoherent rfl fun other hother hcalls hform r s _ _ heq => ?_
  cases other with
  | binary sign name first second =>
      obtain ⟨⟨stratum, hkind⟩, -, rfl, hleftside, hrightside⟩ := hcoherent
      obtain ⟨⟨layer, hsign⟩, -, rfl, hfirst, hsecond⟩ := hother
      simp only [tokens, List.cons_append, List.append_assoc, List.cons.injEq, true_and,
        List.nil_append] at heq
      obtain ⟨hone, htoken, heq⟩ := hleft.before_mark hleftside hfirst
        (Stratum.not_mem_of_mem_operators hkind) (Stratum.not_mem_of_mem_operators hsign) heq
      obtain ⟨htwo, -, hrest⟩ :=
        hright.before_mark hrightside hsecond (by decide) (by decide) heq
      rw [canonical, canonical, htoken, hone, htwo]
      exact ⟨rfl, hrest⟩
  | _ => contradiction

theorem tokens_conditional (token : Token) (condition : Expr) (consequent : Block)
    (alternative : Option Block) :
    (conditional token condition consequent alternative).tokens =
      token :: ⟨.openParen, "("⟩ :: (condition.tokens ++ ⟨.closeParen, ")"⟩ ::
        (consequent.tokens ++ alternative.elim [] (⟨.kwElse, "else"⟩ :: ·.tokens))) := by
  cases alternative <;> simp [tokens]

theorem canonical_conditional (token : Token) (condition : Expr) (consequent : Block)
    (alternative : Option Block) :
    (conditional token condition consequent alternative).canonical =
      conditional token condition.canonical consequent.canonical
        (alternative.map Block.canonical) := by
  cases alternative <;> rfl

theorem coherent_conditional_iff :
    (conditional token condition consequent alternative).Coherent ↔
      token = ⟨.kwIf, "if"⟩ ∧ condition.Coherent ∧ consequent.Coherent ∧
        ∀ arm ∈ alternative, arm.Coherent := by
  cases alternative <;> simp [Coherent]

/-- The other arms of two conditionals, of which either may be missing. -/
theorem alternative_cancel {other : Option Block} (hcancels : ∀ arm ∈ alternative, arm.Cancels)
    (hother : ∀ arm ∈ other, arm.Coherent) :
    CancelBefore [.kwElse] (fun arm => arm.elim [] (⟨.kwElse, "else"⟩ :: ·.tokens))
      (Option.map Block.canonical) alternative other := by
  have hstarts (arm : Block) (rest : List Token) :
      ¬ StartsWithout [.kwElse] ((⟨.kwElse, "else"⟩ :: arm.tokens) ++ rest) :=
    fun hstarts => hstarts _ rfl List.mem_cons_self
  refine optional_cancel (fun arm _ => hstarts arm) (fun arm _ => hstarts arm)
    fun arm harm second hsecond r s _ _ heq => ?_
  exact hcancels arm harm second (hother second hsecond) r s (startsWithout_nil r)
    (startsWithout_nil s) (List.cons.inj heq).2

theorem cancels_conditional
    (hcoherent : (Expr.conditional token condition consequent alternative).Coherent)
    (hcondition : condition.Cancels) (hconsequent : consequent.Cancels)
    (halternative : ∀ arm ∈ alternative, arm.Cancels) :
    (Expr.conditional token condition consequent alternative).Cancels := by
  refine .of_form hcoherent rfl fun other hother hcalls hform r s hr hs heq => ?_
  cases other with
  | conditional keyword tree block arm =>
      obtain ⟨rfl, hleft, -, -⟩ := coherent_conditional_iff.1 hcoherent
      obtain ⟨rfl, htree, hblock, harm⟩ := coherent_conditional_iff.1 hother
      simp only [tokens_conditional, List.cons_append, List.append_assoc, List.cons.injEq,
        true_and] at heq
      obtain ⟨hfirst, -, heq⟩ := hcondition.before_mark hleft htree (by decide) (by decide) heq
      obtain ⟨hsecond, heq⟩ := hconsequent block hblock _ _ (startsWithout_nil _)
        (startsWithout_nil _) heq
      obtain ⟨hthird, hrest⟩ := alternative_cancel halternative harm r s hr hs heq
      rw [canonical_conditional, canonical_conditional, hfirst, hsecond, hthird]
      exact ⟨rfl, hrest⟩
  | _ => contradiction

theorem cancels_function (hcoherent : (Expr.function token parameters body).Coherent)
    (hbody : body.Cancels) : (Expr.function token parameters body).Cancels := by
  refine .of_form hcoherent rfl fun other hother hcalls hform r s _ _ heq => ?_
  cases other with
  | function keyword names block =>
      obtain ⟨rfl, hparameters, -⟩ := hcoherent
      obtain ⟨rfl, hnames, hblock⟩ := hother
      simp only [tokens, List.cons_append, List.append_assoc, List.cons.injEq, true_and] at heq
      have hopens (id : Ident) (hid : id.WellFormed) :
          Opens (fun id : Ident => [id.token]) .closeParen id :=
        ⟨_, _, rfl, by rw [hid.kind_eq]; decide⟩
      have hitems (id : Ident) (hid : id ∈ parameters) (name : Ident) (hname : name ∈ names) :
          CancelBefore [] (fun id : Ident => [id.token]) (fun id => id) id name := by
        intro r s _ _ heq
        obtain ⟨htoken, hrest⟩ := List.cons.inj heq
        refine ⟨?_, hrest⟩
        rw [(hparameters id hid).eq_mk, htoken, ← (hnames name hname).eq_mk]
      obtain ⟨hlist, hrest⟩ := separated_cancel List.not_mem_nil List.not_mem_nil (by decide)
        (fun id hid => hopens id (hparameters id hid)) (fun id hid => hopens id (hnames id hid))
        hitems (endsWith_cons rfl _) (endsWith_cons rfl _) heq
      rw [List.map_id', List.map_id'] at hlist
      obtain ⟨htree, hrest⟩ := hbody block hblock r s (startsWithout_nil r) (startsWithout_nil s)
        (List.cons.inj hrest).2
      rw [canonical, canonical, hlist, htree]
      exact ⟨rfl, hrest⟩
  | _ => contradiction

/-- A call is compared with calls only, and each of its parts with the same part. -/
theorem cancels_call (hcoherent : (Expr.call token callee arguments).Coherent)
    (hcallee : callee.Cancels) (harguments : ∀ tree ∈ arguments, tree.Cancels) :
    (Expr.call token callee arguments).Cancels := by
  intro count other hother hsame
  cases count with
  | succ count => exact hcallee count other hother hsame
  | zero =>
      cases other with
      | call mark tree trees =>
          intro r s _ _ heq
          obtain ⟨rfl, hleft, hlefts⟩ := hcoherent
          obtain ⟨rfl, hright, hrights⟩ := hother
          rw [coherentEach_iff] at hlefts hrights
          have hcalls : (callee.stem 0).calls = tree.calls := by
            rw [stem_zero]
            exact Nat.succ.inj hsame
          simp only [stem_zero, tokens, List.append_assoc, List.cons_append,
            List.nil_append] at heq
          obtain ⟨hfirst, heq⟩ := hcallee 0 tree hright hcalls _ _ (startsWithout_call _)
            (startsWithout_call _) (by rwa [stem_zero])
          rw [tokensEach_eq_map, tokensEach_eq_map] at heq
          obtain ⟨hlist, hrest⟩ := separated_cancel (by decide) (by decide) (by decide)
            (fun item hitem => opens (hlefts item hitem))
            (fun item hitem => opens (hrights item hitem))
            (fun item hitem other hother => (harguments item hitem).cancelBefore
              (hlefts item hitem) (hrights other hother))
            (endsWith_cons rfl _) (endsWith_cons rfl _) (List.cons.inj heq).2
          rw [stem_zero] at hfirst
          rw [stem_zero, canonical, canonical, hfirst, canonicalEach_eq_map, canonicalEach_eq_map,
            hlist]
          exact ⟨rfl, (List.cons.inj hrest).2⟩
      | _ => contradiction

end Parts

end Expr

/-- The kinds that may not follow a statement: it would go on with them. -/
def outgrowths : List TokenKind :=
  .kwElse :: starters

theorem StartsWithout.of_outgrowths {rest : List Token} (hrest : StartsWithout outgrowths rest) :
    StartsWithout [.openParen, .kwElse] rest := by
  intro token htoken hkind
  refine hrest token htoken ?_
  generalize token.kind = kind at hkind ⊢
  revert kind
  decide

/-- Two values, of which either may be missing. -/
theorem value_cancel {value other : Option Expr} (hcancels : ∀ tree ∈ value, tree.Cancels)
    (hvalue : ∀ tree ∈ value, tree.Coherent) (hother : ∀ tree ∈ other, tree.Coherent) :
    CancelBefore outgrowths (fun value => value.elim [] Expr.tokens) (Option.map Expr.canonical)
      value other := by
  have hstarts {tree : Expr} (hcoherent : tree.Coherent) (rest : List Token) :
      ¬ StartsWithout outgrowths (tree.tokens ++ rest) := by
    obtain ⟨later, htokens⟩ := tree.exists_tokens_eq_cons
    rw [htokens]
    exact fun hstarts => hstarts _ rfl
      (List.mem_cons_of_mem _ (Expr.firstToken_kind_mem_starters hcoherent))
  refine optional_cancel (fun tree htree => hstarts (hvalue tree htree))
    (fun tree htree => hstarts (hother tree htree)) ?_
  intro tree htree second hsecond r s hr hs heq
  exact (hcancels tree htree).cancelBefore (hvalue tree htree) (hother second hsecond) r s
    hr.of_outgrowths hs.of_outgrowths heq

namespace Stmt

/-- The rule by which the text of a statement would be read. -/
def rule : Stmt → StatementRule
  | .binding _ _ _ => .binding
  | .returning _ _ => .returning
  | .expression _ _ => .expression

/-- Two statements tell by their tokens apart and where they end, unless what follows would go on
with one. -/
def Cancels (left : Stmt) : Prop :=
  ∀ right : Stmt, right.Coherent → CancelBefore outgrowths tokens canonical left right

theorem tokens_binding (token : Token) (id : Ident) (value : Option Expr) :
    (binding token id value).tokens =
      token :: id.token :: ⟨.assign, "="⟩ :: value.elim [] Expr.tokens := by
  cases value <;> rfl

theorem tokens_returning (token : Token) (value : Option Expr) :
    (returning token value).tokens = token :: value.elim [] Expr.tokens := by
  cases value <;> rfl

theorem canonical_binding (token : Token) (id : Ident) (value : Option Expr) :
    (binding token id value).canonical = binding token id (value.map Expr.canonical) := by
  cases value <;> rfl

theorem canonical_returning (token : Token) (value : Option Expr) :
    (returning token value).canonical = returning token (value.map Expr.canonical) := by
  cases value <;> rfl

theorem coherent_binding_iff {token : Token} {id : Ident} {value : Option Expr} :
    (binding token id value).Coherent ↔
      token = ⟨.kwLet, "let"⟩ ∧ id.WellFormed ∧ ∀ tree ∈ value, tree.Coherent := by
  cases value <;> simp [Coherent]

theorem coherent_returning_iff {token : Token} {value : Option Expr} :
    (returning token value).Coherent ↔
      token = ⟨.kwReturn, "return"⟩ ∧ ∀ tree ∈ value, tree.Coherent := by
  cases value <;> simp [Coherent]

/-- The first token of a statement tells the rule. -/
theorem exists_first {tree : Stmt} (hcoherent : tree.Coherent) :
    ∃ token later, tree.tokens = token :: later ∧ token.kind ≠ .closeCurly ∧
      (Grammar.standard.statementRule token.kind).getD .expression = tree.rule := by
  cases tree with
  | binding token id value =>
      obtain ⟨rfl, -⟩ := coherent_binding_iff.1 hcoherent
      exact ⟨_, _, tokens_binding _ id value, by decide, rfl⟩
  | returning token value =>
      obtain ⟨rfl, -⟩ := coherent_returning_iff.1 hcoherent
      exact ⟨_, _, tokens_returning _ value, by decide, rfl⟩
  | expression token value =>
      obtain ⟨later, htokens⟩ := value.exists_tokens_eq_cons
      have hstarter : value.firstToken.kind ∈ starters :=
        Expr.firstToken_kind_mem_starters hcoherent
      refine ⟨_, later, htokens, ?_, ?_⟩
      · intro hkind
        rw [hkind] at hstarter
        contradiction
      · rw [Grammar.standard_statementRule_of_mem_starters hstarter]
        rfl

theorem opens {tree : Stmt} (hcoherent : tree.Coherent) : Opens tokens .closeCurly tree := by
  obtain ⟨token, later, htokens, hkind, -⟩ := exists_first hcoherent
  exact ⟨token, later, htokens, hkind⟩

theorem rule_eq {left right : Stmt} (hleft : left.Coherent) (hright : right.Coherent)
    {r s : List Token} (heq : left.tokens ++ r = right.tokens ++ s) : left.rule = right.rule := by
  obtain ⟨token, later, htokens, -, hrule⟩ := exists_first hleft
  obtain ⟨first, rest, hfirst, -, hsame⟩ := exists_first hright
  rw [htokens, hfirst] at heq
  rw [← hrule, ← hsame, (List.cons.inj heq).1]

theorem cancels_binding {token : Token} {id : Ident} {value : Option Expr}
    (hcoherent : (binding token id value).Coherent) (hvalue : ∀ tree ∈ value, tree.Cancels) :
    (binding token id value).Cancels := by
  intro other hother r s hr hs heq
  have hrule := rule_eq hcoherent hother heq
  cases other with
  | binding keyword name result =>
      obtain ⟨rfl, hid, hleft⟩ := coherent_binding_iff.1 hcoherent
      obtain ⟨rfl, hname, hright⟩ := coherent_binding_iff.1 hother
      simp only [tokens_binding, List.cons_append, List.cons.injEq, true_and] at heq
      obtain ⟨htoken, heq⟩ := heq
      obtain ⟨htree, hrest⟩ := value_cancel hvalue hleft hright r s hr hs heq
      rw [canonical_binding, canonical_binding, htree, hid.eq_mk, htoken, ← hname.eq_mk]
      exact ⟨rfl, hrest⟩
  | _ => contradiction

theorem cancels_returning {token : Token} {value : Option Expr}
    (hcoherent : (returning token value).Coherent) (hvalue : ∀ tree ∈ value, tree.Cancels) :
    (returning token value).Cancels := by
  intro other hother r s hr hs heq
  have hrule := rule_eq hcoherent hother heq
  cases other with
  | returning keyword result =>
      obtain ⟨rfl, hleft⟩ := coherent_returning_iff.1 hcoherent
      obtain ⟨rfl, hright⟩ := coherent_returning_iff.1 hother
      simp only [tokens_returning, List.cons_append, List.cons.injEq, true_and] at heq
      obtain ⟨htree, hrest⟩ := value_cancel hvalue hleft hright r s hr hs heq
      rw [canonical_returning, canonical_returning, htree]
      exact ⟨rfl, hrest⟩
  | _ => contradiction

theorem cancels_expression {token : Token} {value : Expr}
    (hcoherent : (expression token value).Coherent) (hvalue : value.Cancels) :
    (expression token value).Cancels := by
  intro other hother r s hr hs heq
  have hrule := rule_eq hcoherent hother heq
  cases other with
  | expression first tree =>
      obtain ⟨htree, hrest⟩ := hvalue.cancelBefore hcoherent hother r s hr.of_outgrowths
        hs.of_outgrowths heq
      rw [canonical, canonical, ← value.firstToken_canonical, htree, tree.firstToken_canonical]
      exact ⟨rfl, hrest⟩
  | _ => contradiction

/-- Statements with semicolons between them, up to the end of the text or to a closing brace. -/
theorem each_cancel {lefts rights : List Stmt} (hlefts : Stmt.CoherentEach lefts)
    (hrights : Stmt.CoherentEach rights) (hcancels : ∀ tree ∈ lefts, tree.Cancels)
    {r s : List Token} (hr : EndsWith .closeCurly r) (hs : EndsWith .closeCurly s)
    (heq : separated ⟨.semicolon, ";"⟩ (Stmt.tokensEach lefts) ++ r =
      separated ⟨.semicolon, ";"⟩ (Stmt.tokensEach rights) ++ s) :
    Stmt.canonicalEach lefts = Stmt.canonicalEach rights ∧ r = s := by
  rw [coherentEach_iff] at hlefts hrights
  rw [tokensEach_eq_map, tokensEach_eq_map] at heq
  rw [canonicalEach_eq_map, canonicalEach_eq_map]
  exact separated_cancel (by decide) (by decide) (by decide)
    (fun item hitem => opens (hlefts item hitem)) (fun item hitem => opens (hrights item hitem))
    (fun item hitem other hother => hcancels item hitem other (hrights other hother)) hr hs heq

end Stmt

theorem Block.cancels_of_each {token : Token} {statements : List Stmt}
    (hcoherent : Stmt.CoherentEach statements) (htoken : token = ⟨.openCurly, "\x7b"⟩)
    (hcancels : ∀ tree ∈ statements, tree.Cancels) : (Block.mk token statements).Cancels := by
  rintro ⟨mark, others⟩ ⟨hmark, hothers⟩ r s _ _ heq
  simp only [Block.tokens, List.cons_append, List.append_assoc, List.cons.injEq,
    List.nil_append] at heq
  obtain ⟨hlist, hrest⟩ := Stmt.each_cancel hcoherent hothers hcancels (endsWith_cons rfl _)
    (endsWith_cons rfl _) heq.2
  rw [Block.canonical, Block.canonical, hlist, htoken, hmark]
  exact ⟨rfl, (List.cons.inj hrest).2⟩

mutual

/-- The tokens of any two coherent expressions tell them apart. -/
theorem Expr.Coherent.cancels : ∀ {tree : Expr}, tree.Coherent → tree.Cancels
  | .ident _, hcoherent => Expr.cancels_ident hcoherent
  | .integer _ _, hcoherent => Expr.cancels_integer hcoherent
  | .boolean _ _, hcoherent => Expr.cancels_boolean hcoherent
  | .unary _ _ _, hcoherent => Expr.cancels_unary hcoherent hcoherent.2.2.cancels
  | .binary _ _ _ _, hcoherent =>
      Expr.cancels_binary hcoherent hcoherent.2.2.2.1.cancels hcoherent.2.2.2.2.cancels
  | .conditional _ _ _ none, hcoherent =>
      Expr.cancels_conditional hcoherent hcoherent.2.1.cancels hcoherent.2.2.cancels nofun
  | .conditional _ _ _ (some _), hcoherent =>
      Expr.cancels_conditional hcoherent hcoherent.2.1.cancels hcoherent.2.2.1.cancels
        fun _ hsome => Option.some.inj hsome ▸ hcoherent.2.2.2.cancels
  | .function _ _ _, hcoherent => Expr.cancels_function hcoherent hcoherent.2.2.cancels
  | .call _ _ arguments, hcoherent =>
      Expr.cancels_call hcoherent hcoherent.2.1.cancels
        (Expr.cancels_of_mem arguments hcoherent.2.2)

theorem Expr.cancels_of_mem : ∀ trees : List Expr, Expr.CoherentEach trees →
    ∀ tree ∈ trees, tree.Cancels
  | [], _ => List.forall_mem_nil _
  | _ :: rest, hcoherent =>
      List.forall_mem_cons.2 ⟨hcoherent.1.cancels, Expr.cancels_of_mem rest hcoherent.2⟩

theorem Stmt.Coherent.cancels : ∀ {tree : Stmt}, tree.Coherent → tree.Cancels
  | .binding _ _ none, hcoherent => Stmt.cancels_binding hcoherent nofun
  | .binding _ _ (some _), hcoherent =>
      Stmt.cancels_binding hcoherent fun _ hsome => Option.some.inj hsome ▸ hcoherent.2.2.cancels
  | .returning _ none, hcoherent => Stmt.cancels_returning hcoherent nofun
  | .returning _ (some _), hcoherent =>
      Stmt.cancels_returning hcoherent fun _ hsome => Option.some.inj hsome ▸ hcoherent.2.cancels
  | .expression _ _, hcoherent =>
      Stmt.cancels_expression hcoherent (Expr.Coherent.cancels hcoherent)

theorem Stmt.cancels_of_mem : ∀ trees : List Stmt, Stmt.CoherentEach trees →
    ∀ tree ∈ trees, tree.Cancels
  | [], _ => List.forall_mem_nil _
  | _ :: rest, hcoherent =>
      List.forall_mem_cons.2 ⟨hcoherent.1.cancels, Stmt.cancels_of_mem rest hcoherent.2⟩

theorem Block.Coherent.cancels : ∀ {tree : Block}, tree.Coherent → tree.Cancels
  | ⟨_, statements⟩, ⟨htoken, hstatements⟩ =>
      Block.cancels_of_each hstatements htoken (Stmt.cancels_of_mem statements hstatements)

end

/-- Coherent programs of any size have the same text only if they are the same in all but the tokens
of expression statements, missing values included. -/
theorem render_eq_iff {left right : Program} (hleft : left.Coherent) (hright : right.Coherent) :
    left.render = right.render ↔ left.canonical = right.canonical := by
  constructor
  · intro hrender
    have htokens : left.tokens = right.tokens := by
      rw [← Program.scanAll_render hleft, ← Program.scanAll_render hright, hrender]
    have hnone : EndsWith .closeCurly [] := nofun
    obtain ⟨hlist, -⟩ := Stmt.each_cancel hleft hright
      (Stmt.cancels_of_mem left.statements hleft) hnone hnone
      (congrArg (· ++ []) htokens)
    exact congrArg Program.mk hlist
  · intro hcanonical
    rw [← Program.render_canonical left, hcanonical, Program.render_canonical]

/-- A call of a function in which a binding and a return lack their values, as a statement with some
token. -/
def unfinished (token : Token) : Program :=
  ⟨[.expression token
    (.call ⟨.openParen, "("⟩
      (.function ⟨.kwFn, "fn"⟩ [⟨⟨.identifier, "x"⟩, "x"⟩]
        ⟨⟨.openCurly, "\x7b"⟩, [.binding ⟨.kwLet, "let"⟩ ⟨⟨.identifier, "y"⟩, "y"⟩ none,
          .returning ⟨.kwReturn, "return"⟩ none]⟩)
      [.ident ⟨⟨.identifier, "x"⟩, "x"⟩])]⟩

theorem render_eq_iff_unfinished :
    (unfinished .endOfInput).Coherent ∧ (unfinished ⟨.kwFn, "fn"⟩).Coherent ∧
      (unfinished .endOfInput).render = "fn(x) \x7b let y = ; return \x7d(x)" ∧
      (unfinished .endOfInput).render = (unfinished ⟨.kwFn, "fn"⟩).render ∧
      (unfinished .endOfInput).canonical = (unfinished ⟨.kwFn, "fn"⟩).canonical ∧
      unfinished .endOfInput ≠ unfinished ⟨.kwFn, "fn"⟩ := by
  have hcoherent (token : Token) : (unfinished token).Coherent := by
    refine ⟨⟨rfl, ⟨rfl, ?_, rfl, ⟨rfl, rfl, rfl, rfl⟩, rfl, trivial⟩, ⟨rfl, rfl, rfl⟩, trivial⟩,
      trivial⟩
    exact List.forall_mem_singleton.2 ⟨rfl, rfl, rfl⟩
  have htext : (unfinished .endOfInput).render = (unfinished ⟨.kwFn, "fn"⟩).render := rfl
  exact ⟨hcoherent _, hcoherent _, by decide +kernel, htext,
    (render_eq_iff (hcoherent _) (hcoherent _)).1 htext, by decide +kernel⟩

end ExprLang
