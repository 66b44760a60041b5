/-
What the arguments of the command ask for: help, the version, or a source to be worked on.
-/
import ExprLang.CommandLine.UsageError

namespace ExprLang

/-- An argument by its form.  The text behind an equals sign in a long option is its value. -/
inductive Argument
  | separator
  | long (name : String) (value : Option String)
  | short (letter : Char)
  | path (text : String)
deriving DecidableEq

/-- The form of an argument in front of the separator.  A lone hyphen is a path. -/
def Argument.ofText (text : String) : Argument :=
  match text.toList with
  | ['-', '-'] => .separator
  | '-' :: '-' :: rest =>
      .long (String.ofList (rest.takeWhile (· != '=')))
        (match rest.dropWhile (· != '=') with
          | [] => none
          | _ :: value => some (String.ofList value))
  | '-' :: letter :: _ => .short letter
  | _ => .path text

/-- What the arguments ask for. -/
inductive Request
  | help
  | version
  | reject (error : UsageError)
  | process (listTokens : Bool) (path : Option String)
deriving DecidableEq

namespace Request

/-- The effect of an option.  An empty path in front of it is found out first. -/
def afterFlag (flag : Flag) (seen : Seen) (next : Seen → Request) : Request :=
  if seen.path = some "" then .reject .emptyPath
  else
    match flag with
    | .help => .help
    | .version => .version
    | .tokens =>
        if seen.listTokens then .reject (.repeatedFlag flag)
        else next { seen with listTokens := true }

def afterPath (text : String) (seen : Seen) (next : Seen → Request) : Request :=
  match seen.path with
  | some _ => .reject (.secondPath text)
  | none => next { seen with path := some text }

/-- What all arguments together ask for. -/
def ofSeen (seen : Seen) : Request :=
  if seen.path = some "" then .reject .emptyPath else .process seen.listTokens seen.path

/-- What the arguments behind the separator ask for.  They are paths, whatever they look like. -/
def ofPathsAfter : List String → Seen → Request
  | [], seen => ofSeen seen
  | text :: rest, seen => afterPath text seen (ofPathsAfter rest)

/-- What the arguments ask for behind those already seen.  They are taken from left to right, and
the first error or request for help or the version decides. -/
def ofArgumentsAfter : List String → Seen → Request
  | [], seen => ofSeen seen
  | text :: rest, seen =>
      match Argument.ofText text with
      | .separator => ofPathsAfter rest seen
      | .path path => afterPath path seen (ofArgumentsAfter rest)
      | .long name value =>
          match Flag.ofName? name, value with
          | none, _ => .reject (.unknownName name seen)
          | some flag, some value => .reject (.unwantedValue flag value seen)
          | some flag, none => afterFlag flag seen (ofArgumentsAfter rest)
      | .short letter =>
          match Flag.ofLetter? letter with
          | none => .reject (.unknownLetter letter)
          | some flag => afterFlag flag seen (ofArgumentsAfter rest)

def ofArguments (arguments : List String) : Request :=
  ofArgumentsAfter arguments .nothing

end Request

end ExprLang
