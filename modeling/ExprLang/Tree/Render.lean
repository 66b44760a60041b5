/-
The canonical text of a tree: every operation in parentheses, one space around binary operators,
statements joined by a semicolon and a space.  Each part is written from the field that carries it;
only integers and the heads of bindings and returns are written from their tokens.
-/
import ExprLang.Tree

namespace ExprLang

/-- Items one after the other with a separator between neighbours. -/
def joined (separator : String) : List String → String
  | [] => ""
  | [item] => item
  | item :: next :: rest => item ++ separator ++ joined separator (next :: rest)

/-- A parameter list in its parentheses. -/
def renderParameters (parameters : List Ident) : String :=
  "(" ++ joined ", " (parameters.map Ident.name) ++ ")"

mutual

/-- The canonical text of an expression. -/
def Expr.render : Expr → String
  | .ident id => id.name
  | .integer token _ => token.lexeme
  | .boolean _ value => if value then "true" else "false"
  | .unary _ operator operand => "(" ++ operator ++ operand.render ++ ")"
  | .binary _ operator left right =>
      "(" ++ left.render ++ " " ++ operator ++ " " ++ right.render ++ ")"
  | .conditional _ condition consequent none =>
      "if (" ++ condition.render ++ ") " ++ consequent.render
  | .conditional _ condition consequent (some alternative) =>
      "if (" ++ condition.render ++ ") " ++ consequent.render ++ " else " ++ alternative.render
  | .function _ parameters body => "fn" ++ renderParameters parameters ++ " " ++ body.render
  | .call _ callee arguments =>
      callee.render ++ "(" ++ joined ", " (Expr.renderEach arguments) ++ ")"

def Expr.renderEach : List Expr → List String
  | [] => []
  | first :: rest => first.render :: Expr.renderEach rest

/-- The canonical text of a statement.  A missing value leaves the text in front of it as it is. -/
def Stmt.render : Stmt → String
  | .binding token id none => token.lexeme ++ " " ++ id.name ++ " = "
  | .binding token id (some value) => token.lexeme ++ " " ++ id.name ++ " = " ++ value.render
  | .returning token none => token.lexeme
  | .returning token (some value) => token.lexeme ++ " " ++ value.render
  | .expression _ value => value.render

def Stmt.renderEach : List Stmt → List String
  | [] => []
  | first :: rest => first.render :: Stmt.renderEach rest

/-- The canonical text of a block: its statements between spaced braces, or two bare braces. -/
def Block.render : Block → String
  | ⟨_, []⟩ => "\x7b\x7d"
  | ⟨_, first :: rest⟩ =>
      "\x7b " ++ joined "; " (first.render :: Stmt.renderEach rest) ++ " \x7d"

end

/-- The canonical text of a program: that of its statements. -/
def Program.render (program : Program) : String :=
  joined "; " (program.statements.map Stmt.render)

def Node.render : Node → String
  | .program root => root.render
  | .block root => root.render
  | .statement root => root.render
  | .expression root => root.render

theorem Expr.renderEach_eq_map (expressions : List Expr) :
    Expr.renderEach expressions = expressions.map Expr.render := by
  induction expressions with
  | nil => rfl
  | cons first rest ih => simp [Expr.renderEach, ih]

theorem Stmt.renderEach_eq_map (statements : List Stmt) :
    Stmt.renderEach statements = statements.map Stmt.render := by
  induction statements with
  | nil => rfl
  | cons first rest ih => simp [Stmt.renderEach, ih]

/-- A block that holds statements is written as they are in a program, between braces. -/
theorem Block.render_of_ne_nil (block : Block) (hne : block.statements ≠ []) :
    block.render = "\x7b " ++ joined "; " (block.statements.map Stmt.render) ++ " \x7d" := by
  obtain ⟨token, statements⟩ := block
  cases statements with
  | nil => exact absurd rfl hne
  | cons first rest => simp [Block.render, Stmt.renderEach_eq_map]

end ExprLang
