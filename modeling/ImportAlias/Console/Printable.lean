import ImportAlias.Text.Basic

/-!
# Printable text

What a reader without a terminal sees of a text that may hold control sequences:
neither the sequences nor control characters, except blanks and line breaks.

## The model

The reader goes through the text with a `Stage`, which says what kind of sequence
it is in. A line break inside a sequence pauses it. The text after the break is
shown as usual, until a control character takes the sequence up again.
-/

namespace ImportAlias.Console

/-- Where a reader stands with respect to control sequences. -/
inductive Stage where
  /-- Outside of every sequence. -/
  | ground
  /-- After the escape character. -/
  | escape
  /-- In an escape sequence that selects something. -/
  | selection
  /-- In a control sequence. -/
  | control
  /-- At the start of a device control string. -/
  | device
  /-- In the parameters of a device control string. -/
  | deviceParameters
  /-- After the parameters of a device control string. -/
  | deviceFunction
  /-- In a string for the device or for an application. -/
  | string
  /-- In a command for the operating system. -/
  | command
deriving DecidableEq, Repr

/-- Whether a character lies between two code points. -/
def between (low high : Nat) (c : Char) : Bool := low ≤ c.toNat && c.toNat ≤ high

/-- Whether a character is a tabulator, a line break or a page break. -/
def isBreak (c : Char) : Bool := c = '\t' || c = '\n' || c = '\x0c' || c = '\r'

/-- Whether a character is shown outside of every sequence. -/
def isShown (c : Char) : Bool := isBreak c || (0x20 ≤ c.toNat && c.toNat ≠ 0x7F)

/-- Whether a character is not one of ASCII. -/
def isWide (c : Char) : Bool := 0x80 ≤ c.toNat

/-- The byte that ends a string, also as a part of a character. -/
def stringEnd : UInt8 := 0x9C

namespace Stage

/-- The stage after a character. Escape starts a sequence wherever it stands, and two
characters cancel every sequence. -/
def next (s : Stage) (c : Char) : Stage :=
  if c = '\x1b' then .escape
  else if c = '\x18' || c = '\x1a' then .ground
  else
    match s with
    | .ground => .ground
    | .escape =>
      if between 0x20 0x2F c then .selection
      else if c = '[' then .control
      else if c = ']' then .command
      else if c = 'P' then .device
      else if c = 'X' || c = '^' || c = '_' then .string
      else if between 0x30 0x7E c then .ground
      else .escape
    | .selection => if between 0x30 0x7E c then .ground else .selection
    | .control => if between 0x40 0x7E c then .ground else .control
    | .device =>
      if between 0x20 0x2F c then .deviceFunction
      else if between 0x30 0x3F c then .deviceParameters
      else if between 0x40 0x7E c then .string
      else .device
    | .deviceParameters =>
      if between 0x20 0x2F c then .deviceFunction
      else if between 0x3C 0x7E c then .string
      else .deviceParameters
    | .deviceFunction => if between 0x30 0x7E c then .string else .deviceFunction
    | .string => if stringEnd ∈ String.utf8EncodeChar c then .ground else .string
    | .command => if c = '\x07' then .ground else .command

/-- Whether a character is shown although it stands in a sequence. -/
def shows (s : Stage) (c : Char) : Bool :=
  match s with
  | .ground => isShown c
  | .escape | .selection | .control => isBreak c
  | .device | .deviceParameters | .deviceFunction | .string | .command => false

end Stage

/-- What is shown of a text from a stage on. `paused` says that the sequence waits for
a control character. A character that is not one of ASCII ends a paused sequence. -/
def shownFrom (s : Stage) (paused : Bool) : Text → Text
  | [] => []
  | c :: t =>
    if paused && isShown c then c :: shownFrom (if isWide c then .ground else s) true t
    else if s.shows c then c :: shownFrom (s.next c) true t
    else shownFrom (s.next c) false t

/-- What is shown of a text. -/
def printable (t : Text) : Text := shownFrom .ground false t

end ImportAlias.Console
