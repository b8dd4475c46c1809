/-!
# Paths

A path is a list of names, from the root of all files or from the place where a run works. Names
that lead nowhere, an empty one or a single point, are left out; one that leads back is kept.
-/

namespace GuardLint

/-- A path: the mark of the root, which is empty for a path without root, and the names after it. -/
structure Path where
  root : String
  names : List String
  deriving DecidableEq, Repr

namespace Path

/-- The mark of the root that a text begins with. Two slashes are a mark of their own, and any other
number of them is like one. -/
def rootOf (text : List Char) : String :=
  match (text.takeWhile (· == '/')).length with
  | 0 => ""
  | 2 => "//"
  | _ => "/"

/-- The pieces of a text between slashes. -/
def pieces : List Char → List (List Char)
  | [] => [[]]
  | c :: text =>
    if c = '/' then [] :: pieces text
    else match pieces text with
      | [] => [[c]]
      | piece :: others => (c :: piece) :: others

/-- The path that a text names. -/
def ofText (text : String) : Path :=
  let names := (pieces text.toList).map String.ofList
  ⟨rootOf text.toList, names.filter fun n => n != "" && n != "."⟩

/-- A path as it is written. -/
def text (p : Path) : String :=
  if p.root.isEmpty && p.names.isEmpty then "." else p.root ++ "/".intercalate p.names

/-- A path that begins where another ends, unless it begins at the root. -/
def under (p base : Path) : Path :=
  if p.root.isEmpty then ⟨base.root, base.names ++ p.names⟩ else p

/-- A path with more names at its end. -/
def append (p : Path) (names : List String) : Path := ⟨p.root, p.names ++ names⟩

end Path

/-- Whether a list of names comes before another: the first name that differs decides, and a list
comes before those that go on after it. -/
def namesBefore : List String → List String → Bool
  | [], [] => false
  | [], _ :: _ => true
  | _ :: _, [] => false
  | a :: as, b :: bs => a < b || (a == b && namesBefore as bs)

/-- Puts a list of names among sorted ones, behind those equal to it. -/
def insertNames (names : List String) : List (List String) → List (List String)
  | [] => [names]
  | n :: ns => if namesBefore names n then names :: n :: ns else n :: insertNames names ns

/-- Lists of names in order. -/
def sortNames (all : List (List String)) : List (List String) :=
  all.foldl (fun sorted n => insertNames n sorted) []

end GuardLint
