import ImportAlias.Text.Basic

/-!
# White space

The characters with the Unicode property `White_Space`. They separate `from`
from its specifier, and they are what trimming removes.
-/

namespace ImportAlias

/-- The first and last code point of each run of `White_Space` characters. -/
def blankRanges : List (Nat × Nat) :=
  [(0x9, 0xD), (0x20, 0x20), (0x85, 0x85), (0xA0, 0xA0), (0x1680, 0x1680), (0x2000, 0x200A),
   (0x2028, 0x2029), (0x202F, 0x202F), (0x205F, 0x205F), (0x3000, 0x3000)]

/-- Whether a character is white space. -/
def isBlank (c : Char) : Bool :=
  blankRanges.any fun r => r.1 ≤ c.toNat && c.toNat ≤ r.2

namespace Text

/-- A text without the white space at its end. -/
def trimEnd (t : Text) : Text := (t.reverse.dropWhile isBlank).reverse

/-- A text without the white space at its two ends. -/
def trim (t : Text) : Text := trimEnd (t.dropWhile isBlank)

end Text

end ImportAlias
