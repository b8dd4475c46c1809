/-!
# Positions and locations in a source text

A position counts code points from the start of a text, and the line and column that a reader
would name. A location is a piece of a text: where it begins and where it ends.
-/

namespace GuardLint

/-- A place between two characters of a text; lines and columns count from one. -/
structure Position where
  offset : Nat
  line : Nat
  column : Nat
  deriving DecidableEq, Repr

namespace Position

/-- The position before the first character. -/
def origin : Position := ⟨0, 1, 1⟩

/-- The position after one more character: a line feed opens a new line, and every other
character takes one column. -/
def step (p : Position) (c : Char) : Position :=
  if c = '\n' then ⟨p.offset + 1, p.line + 1, 1⟩ else ⟨p.offset + 1, p.line, p.column + 1⟩

/-- The position after the characters of a text. -/
def advance (p : Position) (text : List Char) : Position :=
  text.foldl step p

end Position

/-- A piece of a text, from its first character to just after its last. -/
structure Location where
  first : Position
  last : Position
  deriving DecidableEq, Repr

namespace Location

/-- The empty piece at the start of a text. -/
def empty : Location := ⟨.origin, .origin⟩

/-- The offset of the first character. -/
def start (l : Location) : Nat := l.first.offset

/-- The offset just after the last character. -/
def stop (l : Location) : Nat := l.last.offset

/-- The characters of a text that a location covers. -/
def slice (l : Location) (text : List Char) : List Char :=
  (text.drop l.start).take (l.stop - l.start)

end Location

end GuardLint
