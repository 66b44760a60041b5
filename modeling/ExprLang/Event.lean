/-
What is reported while a source is read: entering an operation, each token handed out, each error
when it is recorded, and the end of a program.
-/
import ExprLang.SyntaxError

namespace ExprLang

/-- How important a report is. -/
inductive Level
  | trace
  | debug
  | info
deriving DecidableEq

def Level.name : Level → String
  | trace => "TRACE"
  | debug => "DEBUG"
  | info => "INFO"

/-- The operations that report when they are entered. -/
inductive Activity
  | tokenize
  | parse
deriving DecidableEq

def Activity.name : Activity → String
  | tokenize => "tokenize"
  | parse => "parse"

/-- One report. -/
inductive Event
  /-- An activity begins, on a source of so many bytes. -/
  | entered (activity : Activity) (sourceBytes : Nat)
  /-- A token has been handed out. -/
  | pulled (token : Token)
  /-- An error has been recorded. -/
  | recorded (error : SyntaxError)
  /-- A program has been read to its end, with so many statements and errors. -/
  | finished (statements errors : Nat)
deriving DecidableEq

def Event.level : Event → Level
  | entered _ _ => .info
  | pulled _ => .trace
  | recorded _ => .debug
  | finished _ _ => .debug

def Event.text : Event → String
  | entered activity _ => activity.name
  | pulled _ => "token"
  | recorded _ => "syntax error"
  | finished _ _ => "parsed program"

end ExprLang
