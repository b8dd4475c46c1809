/-!
# Glob patterns

Patterns for paths. A star stands for any text, separators and line feeds included, a question mark
for any character, and brackets for a character of a set; the whole path has to fit. A pattern that
begins with two stars and a slash may also begin anywhere after a slash, or at the start.

Inside brackets an exclamation mark at the start negates the set, a closing bracket at the start is
a member, and a hyphen between two characters stands for those between them. A hyphen whose ends
are out of order stands for nothing, and takes its ends along.
-/

namespace GuardLint

/-- A part of a pattern. -/
inductive Glob.Piece where
  | anyText
  | anyChar
  | oneOf (negated : Bool) (ranges : List (Char × Char))
  | char (c : Char)
  deriving DecidableEq, Repr

namespace Glob

namespace Bracket

/-- The text between brackets, from after the opening one, and the text after the closing one. -/
def split? (text : List Char) : Option (List Char × List Char) :=
  let (bang, text) := match text with
    | '!' :: rest => (['!'], rest)
    | _ => ([], text)
  let (first, text) := match text with
    | ']' :: rest => ([']'], rest)
    | _ => ([], text)
  match text.dropWhile (· != ']') with
  | ']' :: rest => some (bang ++ first ++ text.takeWhile (· != ']'), rest)
  | _ => none

/-- The parts of a text between the hyphens that stand for ranges: those with a character before
them that does not end the range before. `skip` characters cannot be such a hyphen. -/
def chunks (skip : Nat) (current : List Char) : List Char → List (List Char)
  | [] => [current.reverse]
  | c :: text =>
    match skip with
    | skip + 1 => chunks skip (c :: current) text
    | 0 =>
      if c = '-' then current.reverse :: chunks 2 [] text
      else chunks 0 (c :: current) text

/-- A hyphen at the end stands for itself. -/
def closeChunks : List (List Char) → List (List Char)
  | [c, []] => [c ++ ['-']]
  | c :: cs => c :: closeChunks cs
  | [] => []

/-- Removes the ranges whose ends are out of order, the last first. -/
def dropReversed : List (List Char) → List (List Char)
  | c :: cs =>
    match c.getLast?, dropReversed cs with
    | some last, (first :: d) :: ds =>
      if first < last then (c.dropLast ++ d) :: ds else c :: (first :: d) :: ds
    | _, ds => c :: ds
  | [] => []

/-- The ranges that chunks stand for: each character is one, and the characters on both sides of a
boundary are the ends of one. -/
def ranges : List (List Char) → List (Char × Char)
  | [] => []
  | [c] => c.map fun x => (x, x)
  | c :: d :: ds =>
    match c.getLast?, ranges (d :: ds) with
    | some first, (last, _) :: rest => c.dropLast.map (fun x => (x, x)) ++ (first, last) :: rest
    | _, rest => c.map (fun x => (x, x)) ++ rest

/-- The piece that a text between brackets stands for. A hyphen right after the negation has no
character before it, so it stands for itself. -/
def piece (text : List Char) : Piece :=
  let parts := match text with
    | '!' :: _ => dropReversed (closeChunks (chunks 2 [] text))
    | _ => dropReversed (closeChunks (chunks 1 [] text))
  match parts with
  | ['!'] :: [] => .anyChar
  | ['!'] :: cs => .oneOf true (('-', '-') :: ranges cs)
  | ('!' :: c) :: cs => .oneOf true (ranges (c :: cs))
  | cs => .oneOf false (ranges cs)

end Bracket

/-- The pieces of a pattern. A bracket that is not closed stands for itself. Every piece takes a
character at least, so `fuel` need not exceed the length of the pattern. -/
def pieces : (fuel : Nat) → List Char → List Piece
  | 0, _ => []
  | _, [] => []
  | fuel + 1, '*' :: text => .anyText :: pieces fuel text
  | fuel + 1, '?' :: text => .anyChar :: pieces fuel text
  | fuel + 1, '[' :: text =>
    match Bracket.split? text with
    | some (inside, rest) => Bracket.piece inside :: pieces fuel rest
    | none => .char '[' :: pieces fuel text
  | fuel + 1, c :: text => .char c :: pieces fuel text

/-- Whether a character fits a piece that stands for one character. -/
def Piece.fits : Piece → Char → Bool
  | .anyText, _ => false
  | .anyChar, _ => true
  | .oneOf negated ranges, c => ranges.any (fun r => r.1 ≤ c && c ≤ r.2) != negated
  | .char d, c => c = d

/-- All ends of a text, from the text itself to the empty one. -/
def suffixes : List Char → List (List Char)
  | [] => [[]]
  | c :: text => (c :: text) :: suffixes text

/-- What may be left of a text when pieces have taken a start of it, given what may be left before
them, the longest first. -/
def leftAfter : List Piece → List (List Char) → List (List Char)
  | [], left => left
  | .anyText :: ps, left =>
    match left with
    | [] => []
    | longest :: _ => leftAfter ps (suffixes longest)
  | p :: ps, left =>
    leftAfter ps (left.filterMap fun
      | c :: text => if p.fits c then some text else none
      | [] => none)

/-- Whether a whole text fits a pattern. -/
def matches_ (pattern : String) (text : List Char) : Bool :=
  let chars := pattern.toList
  (leftAfter (pieces chars.length chars) [text]).any List.isEmpty

/-- Whether a path fits a pattern, which may begin at any directory if it begins with two stars and
a slash. -/
def matchesPath (path : List Char) (pattern : String) : Bool :=
  matches_ pattern path ||
    match pattern.toList with
    | '*' :: '*' :: '/' :: rest => matches_ (String.ofList rest) path
    | _ => false

/-- Whether a path fits one of some patterns. Backslashes in the path are separators; an empty path
fits none. -/
def matchesAny (path : Option String) (patterns : List String) : Bool :=
  match path with
  | none => false
  | some p =>
    !p.isEmpty && patterns.any (matchesPath (p.toList.map fun c => if c = '\\' then '/' else c))

end Glob

end GuardLint
