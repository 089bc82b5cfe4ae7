import ImportAlias.Text.Basic

/-!
# JSON documents

The part of JSON that reports use, and how it is laid out: every member of an
object or an array has a line of its own, two blanks deeper than the bracket
around it, and an empty array or object is just its two brackets.
-/

namespace ImportAlias

/-- A JSON document. -/
inductive Json where
  /-- A natural number. -/
  | number (n : Nat)
  /-- A text. -/
  | string (t : Text)
  /-- A list of documents. -/
  | array (items : List Json)
  /-- Named documents, in order. -/
  | object (members : List (Text × Json))

namespace Json

/-! ### Strings -/

/-- The two hexadecimal digits of a character below U+0100. -/
def hexPair (c : Char) : Text := [Nat.digitChar (c.toNat / 16), Nat.digitChar (c.toNat % 16)]

/-- How a character is written inside a string. -/
def escape (c : Char) : Text :=
  if c = '"' then ['\\', '"']
  else if c = '\\' then ['\\', '\\']
  else if c.toNat = 0x08 then ['\\', 'b']
  else if c.toNat = 0x0C then ['\\', 'f']
  else if c = '\n' then ['\\', 'n']
  else if c = '\r' then ['\\', 'r']
  else if c = '\t' then ['\\', 't']
  else if c.toNat < 0x20 then ['\\', 'u', '0', '0'] ++ hexPair c
  else [c]

/-- A text as a JSON string. -/
def quote (t : Text) : Text := '"' :: t.flatMap escape ++ ['"']

/-! ### Layout -/

/-- A line break and the indentation of a depth. -/
def newline (depth : Nat) : Text := '\n' :: List.replicate (2 * depth) ' '

mutual

/-- The document as it is laid out at a depth. -/
def layout (depth : Nat) : Json → Text
  | .number n => decimal n
  | .string t => quote t
  | .array [] => ['[', ']']
  | .array (j :: items) =>
    '[' :: newline (depth + 1) ++ layout (depth + 1) j ++ layoutItems (depth + 1) items ++
      newline depth ++ [']']
  | .object [] => ['\x7b', '\x7d']
  | .object ((k, j) :: members) =>
    '\x7b' :: newline (depth + 1) ++ quote k ++ [':', ' '] ++ layout (depth + 1) j ++
      layoutMembers (depth + 1) members ++ newline depth ++ ['\x7d']

/-- The items after the first one. -/
def layoutItems (depth : Nat) : List Json → Text
  | [] => []
  | j :: items => ',' :: newline depth ++ layout depth j ++ layoutItems depth items

/-- The members after the first one. -/
def layoutMembers (depth : Nat) : List (Text × Json) → Text
  | [] => []
  | (k, j) :: members =>
    ',' :: newline depth ++ quote k ++ [':', ' '] ++ layout depth j ++ layoutMembers depth members

end

/-- The document as a text. -/
def pretty (j : Json) : Text := layout 0 j

end Json

end ImportAlias
