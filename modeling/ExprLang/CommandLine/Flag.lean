/-
The options of the command and their names.
-/
import ExprLang.Text.Similarity

namespace ExprLang

/-- The options of the command. -/
inductive Flag
  | tokens
  | help
  | version
deriving DecidableEq

namespace Flag

def name : Flag → String
  | tokens => "tokens"
  | help => "help"
  | version => "version"

/-- An option as it is written in a call. -/
def longForm (flag : Flag) : String :=
  "--" ++ flag.name

def all : List Flag := [tokens, help, version]

def ofName? (name : String) : Option Flag :=
  all.find? fun flag => flag.name = name

theorem ofName?_name (flag : Flag) : ofName? flag.name = some flag := by
  cases flag <;> rfl

/-- The options that also have a short form. -/
def ofLetter? : Char → Option Flag
  | 'h' => some help
  | 'V' => some version
  | _ => none

/-- The option that a mistyped name may stand for. -/
def similar? (name : String) : Option Flag :=
  (mostAlike? name (all.map Flag.name)).bind ofName?

end Flag

end ExprLang
