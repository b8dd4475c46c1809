/-!
# Sorted lists of texts

Texts in the order of their code points.
-/

namespace GuardLint.Text

/-- Puts a text in a sorted list, behind those equal to it. -/
def insertSorted (text : String) : List String → List String
  | [] => [text]
  | t :: ts => if text < t then text :: t :: ts else t :: insertSorted text ts

/-- The texts of a list in the order of their code points. -/
def sorted (texts : List String) : List String :=
  texts.foldl (fun sorted t => insertSorted t sorted) []

/-- The texts of a list, each once, in the order of their code points. -/
def sortedSet (texts : List String) : List String :=
  texts.foldl (fun sorted t => if sorted.contains t then sorted else insertSorted t sorted) []

end GuardLint.Text
