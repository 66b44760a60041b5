/-
Text in double quotes, as it is shown inside a message.
-/
import ExprLang.Text.Unprintable

namespace ExprLang

/-- How one character stands in quoted text.  The quote, the backslash and four controls have a
short form; any other character without a glyph is given by its code point in lower-case
hexadecimal. -/
def quotedChar (c : Char) : String :=
  match c with
  | '"' => "\\\""
  | '\\' => "\\\\"
  | '\x00' => "\\0"
  | '\t' => "\\t"
  | '\n' => "\\n"
  | '\r' => "\\r"
  | _ =>
      if isUnprintable c then "\\u\x7b" ++ String.ofList (Nat.toDigits 16 c.toNat) ++ "\x7d"
      else String.ofList [c]

/-- A text between double quotes, character by character. -/
def quoted (text : String) : String :=
  "\"" ++ String.join (text.toList.map quotedChar) ++ "\""

example : quoted "a\"b\\c\n" = "\"a\\\"b\\\\c\\n\"" := by decide +kernel
example : quoted "é\u0301" = "\"é\\u\x7b301\x7d\"" := by decide +kernel

end ExprLang
