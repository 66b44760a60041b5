/-
Texts without what would steer a terminal: single control characters other than blanks, and the
control sequences that an escape character begins.  A text free of control characters is left as it
is.
-/
namespace ExprLang

/-- Where in a control sequence a place in a text is. -/
inductive ControlState
  /-- In none. -/
  | outside
  /-- Right behind the escape character. -/
  | escape
  /-- Behind the escape character and a mark: one more letter or digit ends the sequence. -/
  | marked
  /-- Among parameters, which a letter ends. -/
  | parameters
  /-- In a text for the terminal, which a bell ends. -/
  | titled
  /-- In front of a text for the terminal, which a letter or a colon begins. -/
  | header
  /-- In a text for the terminal, which only the end of text ends. -/
  | quoted
deriving DecidableEq

/-- Space is not a control character; the rest of ASCII that shows nothing is. -/
def isControl (c : Char) : Bool :=
  c.toNat < 0x20 || c.toNat == 0x7f

/-- The control characters that are kept wherever they take effect. -/
def isControlBlank (c : Char) : Bool :=
  c == '\t' || c == '\n' || c == '\x0c' || c == '\r'

/-- The end of a text for the terminal is a single byte, that may also be part of a character. -/
def endsQuoted (c : Char) : Bool :=
  c.utf8Size > 1 && (String.utf8EncodeChar c).contains 0x9c

namespace ControlState

/-- The state behind a character that is neither an escape character nor a cancelling one. -/
def behind (c : Char) : ControlState → ControlState
  | outside => outside
  | escape =>
      if c == '[' then parameters
      else if c == ']' then titled
      else if c == 'P' then header
      else if c == 'X' || c == '^' || c == '_' then quoted
      else if '0' ≤ c && c ≤ '~' then outside
      else if ' ' ≤ c && c ≤ '/' then marked
      else escape
  | marked => if '0' ≤ c && c ≤ '~' then outside else marked
  | parameters => if '@' ≤ c && c ≤ '~' then outside else parameters
  | titled => if c == '\x07' then outside else titled
  | header => if c == ':' || ('@' ≤ c && c ≤ '~') then quoted else header
  | quoted => if endsQuoted c then outside else quoted

/-- The state behind a character, and whether the character is kept.  A blank that takes effect
inside a sequence breaks it off. -/
def step (state : ControlState) (c : Char) : ControlState × Bool :=
  if c == '\x1b' then (escape, false)
  else if c == '\x18' || c == '\x1a' then (outside, false)
  else
    match state with
    | outside => (outside, !isControl c || isControlBlank c)
    | titled => (behind c titled, false)
    | header => (behind c header, false)
    | quoted => (behind c quoted, false)
    | state => if isControlBlank c then (outside, true) else (behind c state, false)

end ControlState

/-- The characters that are kept from a state on. -/
def keptChars : ControlState → List Char → List Char
  | _, [] => []
  | state, c :: rest =>
      match state.step c with
      | (next, true) => c :: keptChars next rest
      | (next, false) => keptChars next rest

def withoutControl (text : String) : String :=
  String.ofList (keptChars .outside text.toList)

theorem step_outside_of_not_isControl {c : Char} (h : isControl c = false) :
    ControlState.outside.step c = (.outside, true) := by
  have ne (d : Char) (hd : isControl d = true) : (c == d) = false := by
    rw [beq_eq_false_iff_ne]
    rintro rfl
    rw [h] at hd
    cases hd
  simp [ControlState.step, ne '\x1b' rfl, ne '\x18' rfl, ne '\x1a' rfl, h]

/-- Nothing is lost of a text without control characters. -/
theorem withoutControl_of_forall_not_isControl {text : String}
    (h : ∀ c ∈ text.toList, isControl c = false) : withoutControl text = text := by
  have kept (chars : List Char) (hc : ∀ c ∈ chars, isControl c = false) :
      keptChars .outside chars = chars := by
    induction chars with
    | nil => rfl
    | cons c rest ih =>
        simp only [keptChars, step_outside_of_not_isControl (hc c (by simp))]
        rw [ih fun d hd => hc d (by simp [hd])]
  rw [withoutControl, kept _ h, String.ofList_toList]

example : withoutControl "a\x1b[31mred\x1b[0m\x01\tb" = "ared\tb" := by decide +kernel
example : withoutControl "a\x1b]0;title\x07b\x1b(Bc\x7f" = "abc" := by decide +kernel

end ExprLang
