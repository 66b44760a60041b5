/-
Deciding equality of trees, tokens included.  `same` compares two trees part by part; it holds
exactly of equal trees, so the types of the tree have decidable equality.
-/
import ExprLang.Tree

namespace ExprLang

mutual

def Expr.same : Expr → Expr → Bool
  | .ident i, .ident j => decide (i = j)
  | .integer t v, .integer u w => decide (t = u) && decide (v = w)
  | .boolean t v, .boolean u w => decide (t = u) && decide (v = w)
  | .unary t o x, .unary u p y => decide (t = u) && decide (o = p) && x.same y
  | .binary t o x y, .binary u p z w =>
      decide (t = u) && decide (o = p) && x.same z && y.same w
  | .conditional t c b none, .conditional u d e none => decide (t = u) && c.same d && b.same e
  | .conditional t c b (some a), .conditional u d e (some f) =>
      decide (t = u) && c.same d && b.same e && a.same f
  | .function t ps b, .function u qs c => decide (t = u) && decide (ps = qs) && b.same c
  | .call t f xs, .call u g ys => decide (t = u) && f.same g && Expr.sameEach xs ys
  | _, _ => false

def Expr.sameEach : List Expr → List Expr → Bool
  | [], [] => true
  | x :: xs, y :: ys => x.same y && Expr.sameEach xs ys
  | _, _ => false

def Stmt.same : Stmt → Stmt → Bool
  | .binding t i none, .binding u j none => decide (t = u) && decide (i = j)
  | .binding t i (some x), .binding u j (some y) =>
      decide (t = u) && decide (i = j) && x.same y
  | .returning t none, .returning u none => decide (t = u)
  | .returning t (some x), .returning u (some y) => decide (t = u) && x.same y
  | .expression t x, .expression u y => decide (t = u) && x.same y
  | _, _ => false

def Stmt.sameEach : List Stmt → List Stmt → Bool
  | [], [] => true
  | s :: ss, r :: rs => s.same r && Stmt.sameEach ss rs
  | _, _ => false

def Block.same : Block → Block → Bool
  | ⟨t, ss⟩, ⟨u, rs⟩ => decide (t = u) && Stmt.sameEach ss rs

end

mutual

theorem Expr.same_iff : ∀ left right : Expr, left.same right = true ↔ left = right
  | .ident i, right => by
      cases right <;> simp [Expr.same]
  | .integer t v, right => by
      cases right <;> simp [Expr.same]
  | .boolean t v, right => by
      cases right <;> simp [Expr.same]
  | .unary t o x, right => by
      cases right <;> simp [Expr.same, Expr.same_iff x, and_assoc]
  | .binary t o x y, right => by
      cases right <;> simp [Expr.same, Expr.same_iff x, Expr.same_iff y, and_assoc]
  | .conditional t c b none, .conditional u d e none => by
      simp [Expr.same, Expr.same_iff c, Block.same_iff b, and_assoc]
  | .conditional t c b (some a), .conditional u d e (some f) => by
      simp [Expr.same, Expr.same_iff c, Block.same_iff b, Block.same_iff a, and_assoc]
  | .conditional t c b none, .conditional u d e (some f) => by
      simp [Expr.same]
  | .conditional t c b (some a), .conditional u d e none => by
      simp [Expr.same]
  | .function t ps b, right => by
      cases right <;> simp [Expr.same, Block.same_iff b, and_assoc]
  | .call t f xs, right => by
      cases right <;> simp [Expr.same, Expr.same_iff f, Expr.sameEach_iff xs, and_assoc]
  | .conditional t c b a, .ident j => by
      simp [Expr.same]
  | .conditional t c b a, .integer u v => by
      simp [Expr.same]
  | .conditional t c b a, .boolean u v => by
      simp [Expr.same]
  | .conditional t c b a, .unary u o x => by
      simp [Expr.same]
  | .conditional t c b a, .binary u o x y => by
      simp [Expr.same]
  | .conditional t c b a, .function u ps d => by
      simp [Expr.same]
  | .conditional t c b a, .call u f xs => by
      simp [Expr.same]

theorem Expr.sameEach_iff : ∀ left right : List Expr,
    Expr.sameEach left right = true ↔ left = right
  | [], right => by
      cases right <;> simp [Expr.sameEach]
  | x :: xs, right => by
      cases right <;> simp [Expr.sameEach, Expr.same_iff x, Expr.sameEach_iff xs]

theorem Stmt.same_iff : ∀ left right : Stmt, left.same right = true ↔ left = right
  | .binding t i none, .binding u j value => by
      cases value <;> simp [Stmt.same]
  | .binding t i (some x), .binding u j value => by
      cases value <;> simp [Stmt.same, Expr.same_iff x, and_assoc]
  | .returning t none, .returning u value => by
      cases value <;> simp [Stmt.same]
  | .returning t (some x), .returning u value => by
      cases value <;> simp [Stmt.same, Expr.same_iff x]
  | .expression t x, right => by
      cases right <;> simp [Stmt.same, Expr.same_iff x]
  | .binding t i value, .returning u w => by
      simp [Stmt.same]
  | .binding t i value, .expression u y => by
      simp [Stmt.same]
  | .returning t value, .binding u j w => by
      simp [Stmt.same]
  | .returning t value, .expression u y => by
      simp [Stmt.same]

theorem Stmt.sameEach_iff : ∀ left right : List Stmt,
    Stmt.sameEach left right = true ↔ left = right
  | [], right => by
      cases right <;> simp [Stmt.sameEach]
  | s :: ss, right => by
      cases right <;> simp [Stmt.sameEach, Stmt.same_iff s, Stmt.sameEach_iff ss]

theorem Block.same_iff : ∀ left right : Block, left.same right = true ↔ left = right
  | ⟨t, ss⟩, ⟨u, rs⟩ => by
      simp [Block.same, Stmt.sameEach_iff ss]

end

instance : DecidableEq Expr := fun left right =>
  decidable_of_iff _ (Expr.same_iff left right)

instance : DecidableEq Stmt := fun left right =>
  decidable_of_iff _ (Stmt.same_iff left right)

instance : DecidableEq Block := fun left right =>
  decidable_of_iff _ (Block.same_iff left right)

deriving instance DecidableEq for Program

deriving instance DecidableEq for Node

end ExprLang
