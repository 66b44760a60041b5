/-
What can be wrong with the arguments of the command, and how it is explained.  What is quoted of an
argument cannot steer the terminal.  An explanation may end with a form of call that keeps what the
user has written so far.
-/
import ExprLang.CommandLine.Flag
import ExprLang.Text.Control

namespace ExprLang

/-- What has been seen of the arguments: whether tokens are to be listed, and the path. -/
structure Seen where
  listTokens : Bool
  path : Option String
deriving DecidableEq

namespace Seen

def nothing : Seen := ⟨false, none⟩

def flags (seen : Seen) : List Flag :=
  if seen.listTokens then [.tokens] else []

end Seen

/-- The last part of a form of call. -/
inductive PathForm
  | optional
  | required
  /-- A path or the option `tokens`, or both. -/
  | orTokens
deriving DecidableEq

def PathForm.text : PathForm → String
  | optional => "[PATH]"
  | required => "<PATH>"
  | orTokens => "<PATH|" ++ Flag.tokens.longForm ++ ">"

/-- A form of call that is shown with an error. -/
inductive CallForm
  /-- The form of all calls. -/
  | general
  /-- A call with these options. -/
  | specific (flags : List Flag) (path : PathForm)
deriving DecidableEq

namespace CallForm

def text : CallForm → String
  | general => "[OPTIONS] [PATH]"
  | specific flags path => " ".intercalate (flags.map Flag.longForm ++ [path.text])

/-- The call with all that has been seen, each option once, and with the option that may have been
meant behind them. -/
def continuing (seen : Seen) (meant : Option Flag) : CallForm :=
  match seen.flags ++ meant.toList.filter (fun flag => !seen.flags.contains flag), seen.path with
  | [], none => general
  | flags, none => specific flags .optional
  | flags, some _ => specific flags .required

/-- The call with an option that takes no value.  Once `tokens` has been seen it joins the path, and
is not repeated in front of it; a path alone changes nothing. -/
def withoutValue (seen : Seen) (flag : Flag) : CallForm :=
  if seen.listTokens then specific ([flag].filter (· ≠ .tokens)) .orTokens
  else specific [flag] .optional

end CallForm

/-- What can be wrong with the arguments.  Where the form of call depends on it, an error holds what
had been seen in front of it. -/
inductive UsageError
  /-- No option has this name. -/
  | unknownName (name : String) (seen : Seen)
  /-- No option has this letter. -/
  | unknownLetter (letter : Char)
  /-- There was a path already. -/
  | secondPath (text : String)
  /-- An option that is allowed once came twice. -/
  | repeatedFlag (flag : Flag)
  /-- An option that takes no value was given one. -/
  | unwantedValue (flag : Flag) (value : String) (seen : Seen)
  /-- The path is the empty text. -/
  | emptyPath
deriving DecidableEq

namespace UsageError

/-- An argument that nothing could be done with. -/
def unexpected (text : String) : String :=
  "unexpected argument '" ++ withoutControl text ++ "' found"

/-- What is wrong.  Of an unknown long option the name is shown, and of a run of letters the unknown
one alone. -/
def message : UsageError → String
  | unknownName name _ => unexpected ("--" ++ name)
  | unknownLetter letter => unexpected (String.ofList ['-', letter])
  | secondPath text => unexpected text
  | repeatedFlag flag => "the argument '" ++ flag.longForm ++ "' cannot be used multiple times"
  | unwantedValue flag value _ =>
      "unexpected value '" ++ withoutControl value ++ "' for '" ++ flag.longForm ++
        "' found; no more were expected"
  | emptyPath => "a value is required for '[PATH]' but none was supplied"

/-- How to pass a text that looks like an option as a path. -/
def separatorTip (text : String) : String :=
  "to pass '" ++ withoutControl text ++ "' as a value, use '-- " ++ withoutControl text ++ "'"

def tip? : UsageError → Option String
  | unknownName name _ =>
      some (match Flag.similar? name with
        | some flag => "a similar argument exists: '" ++ flag.longForm ++ "'"
        | none => separatorTip ("--" ++ name))
  | unknownLetter letter => some (separatorTip (String.ofList ['-', letter]))
  | _ => none

/-- The form of call that is shown with an error. -/
def callForm? : UsageError → Option CallForm
  | unknownName name seen => some (.continuing seen (Flag.similar? name))
  | unwantedValue flag _ seen => some (.withoutValue seen flag)
  | emptyPath => none
  | _ => some .general

end UsageError

example : (CallForm.continuing ⟨true, some "p"⟩ (some .help)).text = "--tokens --help <PATH>" := by
  decide +kernel
example : (CallForm.withoutValue ⟨true, none⟩ .tokens).text = "<PATH|--tokens>" := by
  decide +kernel

end ExprLang
