import GuardLint.Location

/-!
# Spans

Where a finding is, as far as it is known: a file, lines and columns for the reader, and offsets
for replacing text. Offsets are half-open.
-/

namespace GuardLint

/-- A place in a file; what is not known is missing. -/
structure Span where
  file : Option String
  line : Option Int
  column : Option Int
  endLine : Option Int
  endColumn : Option Int
  start : Option Int
  stop : Option Int
  deriving DecidableEq, Repr

namespace Span

/-- A span of which at most the file is known. -/
def unknown (file : Option String) : Span := ⟨file, none, none, none, none, none, none⟩

/-- The span of a location; an empty file name is none. -/
def ofLocation (l : Location) (file : Option String) : Span :=
  ⟨file.filter (!·.isEmpty), some l.first.line, some l.first.column, some l.last.line,
    some l.last.column, some l.start, some l.stop⟩

/-- A span in a file, unless it has a file already. -/
def inFile (s : Span) (file : Option String) : Span :=
  { s with file := s.file <|> file }

/-- Whether both offsets are known. -/
def hasOffsets (s : Span) : Bool := s.start.isSome && s.stop.isSome

/-- Whether two spans with offsets share a character, or one lies inside the other. -/
def overlaps (s t : Span) : Bool :=
  match s.start, s.stop, t.start, t.stop with
  | some a, some b, some c, some d => a < d && c < b
  | _, _, _, _ => false

end Span

end GuardLint
