/-! # Positions in a text

A position is a line and a column, both counted from one. The column counts Unicode scalar
values, not bytes. Both are 32-bit words, so that the arithmetic on a position that lies far
outside the text is the arithmetic of words. -/
set_option autoImplicit false
namespace MiniPascal

/-- A line and a column, both counted from one. -/
structure Position where
  line : Int32
  column : Int32
deriving DecidableEq

namespace Position

def start : Position :=
  ⟨1, 1⟩

/-- The position behind the character `c` that stands at `position`. -/
def after (position : Position) (c : Char) : Position :=
  if c = '\n' then ⟨position.line + 1, 1⟩ else ⟨position.line, position.column + 1⟩

def shown (position : Position) : String :=
  "[line " ++ position.line.toInt.repr ++ " column " ++ position.column.toInt.repr ++ "]"

end Position
end MiniPascal
