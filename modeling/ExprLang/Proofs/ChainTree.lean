/-
Chains of operands with binary operators between them, under any assignment of powers, and the tree
of such a chain, stated without a parser: the operator that binds most weakly, and of several such
the rightmost one, is its root, and the two sides are trees of the same kind.  Main statement: an
operator can be folded with its left operand and with all that binds more tightly behind it.
-/
import ExprLang.Grammar
import ExprLang.Text.Decimal
import ExprLang.Tree

namespace ExprLang

/-- A binary operator and the operand behind it. -/
structure Link where
  operator : Token
  operand : Token
deriving DecidableEq

namespace Link

variable (power : TokenKind → Power)

/-- How tightly the operator of a link binds. -/
def strength (link : Link) : Power :=
  power link.operator.kind

/-- Whether the operator of a link binds more tightly than a given power. -/
def exceeds (weak : Power) (link : Link) : Bool :=
  decide (weak < link.strength power)

/-- A link is the rightmost of the weakest ones in a chain, with these links in front of it and
these behind it. -/
structure IsWeakest (before : List Link) (link : Link) (behind : List Link) : Prop where
  le_before : ∀ other ∈ before, link.strength power ≤ other.strength power
  lt_behind : ∀ other ∈ behind, link.strength power < other.strength power

/-- The rightmost of the weakest links, between the links in front of it and those behind it. -/
def weakest? : List Link → Option (List Link × Link × List Link)
  | [] => none
  | first :: rest =>
      match weakest? rest with
      | none => some ([], first, [])
      | some (before, link, behind) =>
          if first.strength power < link.strength power then some ([], first, rest)
          else some (first :: before, link, behind)

variable {power} {links before behind : List Link} {link : Link}

theorem weakest?_eq_none_iff : weakest? power links = none ↔ links = [] := by
  cases links with
  | nil => simp [weakest?]
  | cons first rest =>
      rw [weakest?]
      cases weakest? power rest with
      | none => simp
      | some found =>
          dsimp only
          split <;> simp

theorem append_of_weakest? (hfound : weakest? power links = some (before, link, behind)) :
    links = before ++ link :: behind := by
  induction links generalizing before with
  | nil => simp [weakest?] at hfound
  | cons first rest ih =>
      rw [weakest?] at hfound
      cases hrest : weakest? power rest with
      | none =>
          rw [hrest] at hfound
          obtain ⟨rfl, rfl, rfl⟩ := hfound
          rw [weakest?_eq_none_iff.1 hrest]
          rfl
      | some found =>
          obtain ⟨front, last, back⟩ := found
          rw [hrest] at hfound
          dsimp only at hfound
          split at hfound
          · obtain ⟨rfl, rfl, rfl⟩ := hfound
            rfl
          · obtain ⟨rfl, rfl, rfl⟩ := hfound
            rw [ih hrest, List.cons_append]

theorem isWeakest_of_weakest? (hfound : weakest? power links = some (before, link, behind)) :
    IsWeakest power before link behind := by
  induction links generalizing before link behind with
  | nil => simp [weakest?] at hfound
  | cons first rest ih =>
      rw [weakest?] at hfound
      cases hrest : weakest? power rest with
      | none =>
          rw [hrest] at hfound
          obtain ⟨rfl, rfl, rfl⟩ := hfound
          constructor <;> simp
      | some found =>
          obtain ⟨front, last, back⟩ := found
          have hlast := ih hrest
          have happend := append_of_weakest? hrest
          rw [hrest] at hfound
          dsimp only at hfound
          split at hfound
          · next hless =>
              obtain ⟨rfl, rfl, rfl⟩ := hfound
              constructor
              · simp
              · intro other hother
                rw [happend, List.mem_append, List.mem_cons] at hother
                rw [Power.lt_iff] at hless ⊢
                rcases hother with hother | rfl | hother
                · exact Nat.lt_of_lt_of_le hless (hlast.le_before other hother)
                · exact hless
                · exact Nat.lt_trans hless (hlast.lt_behind other hother)
          · next hless =>
              obtain ⟨rfl, rfl, rfl⟩ := hfound
              constructor
              · intro other hother
                rcases List.mem_cons.1 hother with rfl | hother
                · exact Nat.le_of_not_lt hless
                · exact hlast.le_before other hother
              · exact hlast.lt_behind

/-- Where the rightmost of the weakest links is known, it is the one that is found. -/
theorem IsWeakest.weakest?_eq (hweakest : IsWeakest power before link behind) :
    weakest? power (before ++ link :: behind) = some (before, link, behind) := by
  obtain ⟨hbefore, hbehind⟩ := hweakest
  induction before with
  | nil =>
      rw [List.nil_append, weakest?]
      cases hrest : weakest? power behind with
      | none => rw [weakest?_eq_none_iff.1 hrest]
      | some found =>
          obtain ⟨front, last, back⟩ := found
          have hlast : last ∈ behind := by
            rw [append_of_weakest? hrest]
            simp
          dsimp only
          rw [if_pos (hbehind last hlast)]
  | cons first before ih =>
      have hfirst := hbefore first List.mem_cons_self
      rw [List.cons_append, weakest?, ih fun other hother =>
        hbefore other (List.mem_cons_of_mem first hother)]
      dsimp only
      rw [if_neg (by rw [Power.lt_iff]; exact Nat.not_lt_of_le hfirst)]

theorem exceeds_iff {weak : Power} : link.exceeds power weak = true ↔ weak < link.strength power :=
  decide_eq_true_iff

/-- The first link behind those that exceed a power does not exceed it. -/
theorem strength_le_of_head? {weak : Power} {other : Link}
    (hother : other ∈ (links.dropWhile (exceeds power weak)).head?) :
    other.strength power ≤ weak := by
  have hhead := List.head?_dropWhile_not (exceeds power weak) links
  rw [Option.mem_def.1 hother] at hhead
  exact Nat.not_lt.1 (mt exceeds_iff.2 (by simpa using hhead))

theorem exceeds_of_mem_takeWhile {weak strong : Power} (hless : weak < strong) :
    ∀ link ∈ links.takeWhile (exceeds power strong), exceeds power weak link = true := by
  intro link hlink
  have hstrong := exceeds_iff.1 (List.all_eq_true.1 List.all_takeWhile link hlink)
  exact exceeds_iff.2 (Nat.lt_trans hless hstrong)

/-- The links in front that exceed a power are those that exceed a stronger one and then, of what is
behind these, those that exceed the weaker one. -/
theorem takeWhile_exceeds {weak strong : Power} (hless : weak < strong) (links : List Link) :
    links.takeWhile (exceeds power weak) =
      links.takeWhile (exceeds power strong) ++
        (links.dropWhile (exceeds power strong)).takeWhile (exceeds power weak) := by
  rw [← List.takeWhile_append_of_pos (exceeds_of_mem_takeWhile hless),
    List.takeWhile_append_dropWhile]

theorem dropWhile_exceeds {weak strong : Power} (hless : weak < strong) (links : List Link) :
    links.dropWhile (exceeds power weak) =
      (links.dropWhile (exceeds power strong)).dropWhile (exceeds power weak) := by
  calc links.dropWhile (exceeds power weak)
      = (links.takeWhile (exceeds power strong) ++
          links.dropWhile (exceeds power strong)).dropWhile (exceeds power weak) := by
        rw [List.takeWhile_append_dropWhile]
    _ = (links.dropWhile (exceeds power strong)).dropWhile (exceeds power weak) :=
        List.dropWhile_append_of_pos (exceeds_of_mem_takeWhile hless)

end Link

/-- What a name, a number or a truth value stands for. -/
def Token.leaf (token : Token) : Expr :=
  match token.kind with
  | .identifier => .ident ⟨token, token.lexeme⟩
  | .integer => .integer token (Int64.ofNat (decimalValue token.lexeme.toList))
  | kind => .boolean token (decide (kind = .kwTrue))

/-- The tree of a chain: its first operand where there is no link, else the rightmost of the weakest
operators with the trees of the two sides. -/
def chainTree (power : TokenKind → Power) (first : Expr) (links : List Link) : Expr :=
  match _ : Link.weakest? power links with
  | none => first
  | some (before, link, behind) =>
      .binary link.operator link.operator.lexeme (chainTree power first before)
        (chainTree power link.operand.leaf behind)
termination_by links.length
decreasing_by
  all_goals
    rw [Link.append_of_weakest? ‹Link.weakest? power links = some (before, link, behind)›,
      List.length_append, List.length_cons]
    omega

section Tree

variable {power : TokenKind → Power} {first : Expr} {links before behind : List Link} {link : Link}

@[simp]
theorem chainTree_nil : chainTree power first [] = first := by
  rw [chainTree]
  rfl

/-- A chain is rooted at the rightmost of its weakest operators. -/
theorem chainTree_of_isWeakest (hweakest : Link.IsWeakest power before link behind) :
    chainTree power first (before ++ link :: behind) =
      .binary link.operator link.operator.lexeme (chainTree power first before)
        (chainTree power link.operand.leaf behind) := by
  rw [chainTree]
  split
  · next hfound =>
      rw [hweakest.weakest?_eq] at hfound
      contradiction
  · next front other back hfound =>
      rw [hweakest.weakest?_eq] at hfound
      obtain ⟨rfl, rfl, rfl⟩ := hfound
      rfl

/-- An operator takes as its right operand all links behind it that bind more tightly, and together
with its left operand it can be taken as the first operand of what is left. -/
theorem chainTree_fold {inner outer : List Link}
    (hinner : ∀ other ∈ inner, link.strength power < other.strength power)
    (houter : ∀ other ∈ outer.head?, other.strength power ≤ link.strength power) :
    chainTree power first (link :: (inner ++ outer)) =
      chainTree power (.binary link.operator link.operator.lexeme first
        (chainTree power link.operand.leaf inner)) outer := by
  induction hlength : outer.length using Nat.strongRecOn generalizing outer with
  | _ length ih =>
      cases hfound : Link.weakest? power outer with
      | none =>
          -- No operator is left, and the one in front is the weakest by itself.
          obtain rfl := Link.weakest?_eq_none_iff.1 hfound
          have hweakest : Link.IsWeakest power [] link inner := ⟨by simp, hinner⟩
          rw [List.append_nil, chainTree_nil, ← List.nil_append (link :: inner),
            chainTree_of_isWeakest hweakest, chainTree_nil]
      | some found =>
          obtain ⟨before, weakest, behind⟩ := found
          obtain rfl := Link.append_of_weakest? hfound
          have hweakest := Link.isWeakest_of_weakest? hfound
          -- The weakest of the operators left binds no more tightly than the one in front.
          have hfirst : ∀ other ∈ before.head?, other.strength power ≤ link.strength power := by
            intro other hother
            apply houter
            rw [List.head?_append, Option.mem_def.1 hother]
            rfl
          have hle : weakest.strength power ≤ link.strength power := by
            cases before with
            | nil => exact houter weakest rfl
            | cons next before =>
                exact Nat.le_trans (hweakest.le_before next List.mem_cons_self)
                  (hfirst next rfl)
          have hwhole : Link.IsWeakest power (link :: (inner ++ before)) weakest behind := by
            constructor
            · intro other hother
              rcases List.mem_cons.1 hother with rfl | hother
              · exact hle
              · rcases List.mem_append.1 hother with hother | hother
                · exact Nat.le_trans hle (Nat.le_of_lt (hinner other hother))
                · exact hweakest.le_before other hother
            · exact hweakest.lt_behind
          have hshorter : before.length < length := by
            rw [← hlength, List.length_append, List.length_cons]
            omega
          rw [← List.append_assoc, ← List.cons_append, chainTree_of_isWeakest hwhole,
            chainTree_of_isWeakest hweakest, ih _ hshorter hfirst rfl]

/-- So of the links that exceed a power, an operator takes those that bind more tightly than itself,
and the others are left. -/
theorem chainTree_takeWhile_exceeds {weak strong : Power} (hstrong : link.strength power = strong)
    (habove : weak < strong) :
    chainTree power first (link :: links.takeWhile (Link.exceeds power weak)) =
      chainTree power (.binary link.operator link.operator.lexeme first
          (chainTree power link.operand.leaf (links.takeWhile (Link.exceeds power strong))))
        ((links.dropWhile (Link.exceeds power strong)).takeWhile (Link.exceeds power weak)) := by
  rw [Link.takeWhile_exceeds habove links]
  apply chainTree_fold
  · intro other hother
    rw [hstrong]
    exact Link.exceeds_iff.1 (List.all_eq_true.1 List.all_takeWhile other hother)
  · intro other hother
    rw [List.head?_takeWhile] at hother
    rw [hstrong]
    exact Link.strength_le_of_head? (Option.mem_filter_iff.1 hother).1

end Tree

/-- The operand that a chain ends with. -/
def lastOperand (first : Token) : List Link → Token
  | [] => first
  | link :: rest => lastOperand link.operand rest

theorem lastOperand_append (first : Token) (links more : List Link) :
    lastOperand first (links ++ more) = lastOperand (lastOperand first links) more := by
  induction links generalizing first with
  | nil => rfl
  | cons link rest ih => exact ih link.operand

/-- The tokens of the links of a chain, in order. -/
def linkTokens (links : List Link) : List Token :=
  links.flatMap fun link => [link.operator, link.operand]

end ExprLang
