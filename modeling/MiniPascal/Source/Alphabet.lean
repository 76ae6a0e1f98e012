/-! # Character classes

The classes that decide how program text is cut into tokens. Words and numbers are made of ASCII
characters alone; every other letter or digit is an unknown character. Blanks are exactly the
code points with the Unicode property `White_Space`. -/
set_option autoImplicit false
namespace MiniPascal.Alphabet

/-- Characters that may start a word: the ASCII letters and the underscore. -/
def isLetter (c : Char) : Bool :=
  c.isAlpha || c == '_'

def isDigit (c : Char) : Bool :=
  c.isDigit

def isWordChar (c : Char) : Bool :=
  isLetter c || isDigit c

/-- The ranges of code points with the property `White_Space`, both ends included. -/
def blankRanges : List (Nat × Nat) :=
  [(0x9, 0xD), (0x20, 0x20), (0x85, 0x85), (0xA0, 0xA0), (0x1680, 0x1680), (0x2000, 0x200A),
    (0x2028, 0x2029), (0x202F, 0x202F), (0x205F, 0x205F), (0x3000, 0x3000)]

/-- Characters that only separate tokens. -/
def isBlank (c : Char) : Bool :=
  blankRanges.any fun range => decide (range.1 ≤ c.toNat) && decide (c.toNat ≤ range.2)

end MiniPascal.Alphabet
