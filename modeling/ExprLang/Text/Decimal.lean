/-
Reading a decimal number that has to fit into 64 bits.
-/
namespace ExprLang

/-- The greatest value a 64-bit integer has. -/
def maxInteger : Nat := 9223372036854775807

/-- The value of a run of decimal digits, leading zeros included. -/
def decimalValue (digits : List Char) : Nat :=
  digits.foldl (fun value c => 10 * value + (c.toNat - '0'.toNat)) 0

/-- A nonempty run of decimal digits and nothing else. -/
def isDigitRun (text : List Char) : Bool :=
  !text.isEmpty && text.all Char.isDigit

/-- The integer a text spells in decimal: an optional sign, then at least one digit.  A text that
spells no number, or one outside the 64-bit range, has none. -/
def readInteger? (text : String) : Option Int64 :=
  match text.toList with
  | '-' :: digits =>
      if isDigitRun digits && decimalValue digits ≤ maxInteger + 1 then
        some (Int64.ofInt (-decimalValue digits))
      else none
  | '+' :: digits =>
      if isDigitRun digits && decimalValue digits ≤ maxInteger then
        some (Int64.ofNat (decimalValue digits))
      else none
  | digits =>
      if isDigitRun digits && decimalValue digits ≤ maxInteger then
        some (Int64.ofNat (decimalValue digits))
      else none

/-- Without a sign, exactly the digit runs up to the limit are numbers. -/
theorem readInteger?_of_isDigitRun {text : String} (hrun : isDigitRun text.toList = true) :
    readInteger? text =
      if decimalValue text.toList ≤ maxInteger then
        some (Int64.ofNat (decimalValue text.toList))
      else none := by
  unfold readInteger?
  generalize text.toList = chars at hrun ⊢
  split
  · simp [isDigitRun] at hrun
  · simp [isDigitRun] at hrun
  · simp [hrun]

/-- A number in range is the integer read. -/
theorem toInt_ofNat_decimalValue {digits : List Char} (hle : decimalValue digits ≤ maxInteger) :
    (Int64.ofNat (decimalValue digits)).toInt = decimalValue digits := by
  rw [maxInteger] at hle
  exact Int64.toInt_ofNat_of_lt (by omega)

example : readInteger? "9223372036854775807" = some 9223372036854775807 := by decide
example : readInteger? "9223372036854775808" = none := by decide
example : readInteger? "-9223372036854775808" = some (-9223372036854775808) := by decide
example : readInteger? "0042" = some 42 := by decide
example : readInteger? "+" = none := by decide

end ExprLang
