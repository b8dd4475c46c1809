import GuardLint.Diff.Alignment
import GuardLint.Text.Lines

/-!
# Unified diffs

A diff shows the edits of a text and three lines around each. Edits whose surroundings touch are in
one hunk; its head says where it is in the old text and in the new one.
-/

namespace GuardLint.Diff

/-- Some changes in a row, and how many lines the old and the new list have before them. -/
structure Hunk (Line : Type) where
  oldStart : Nat
  newStart : Nat
  changes : List (Change Line)
  deriving DecidableEq, Repr

variable {Line : Type}

/-- How many lines are shown before and after an edit. -/
def context : Nat := 3

/-- Which changes are shown: edits, and lines that are near one. `left` lines are still shown after
the edit before. -/
def shown (left : Nat) : List (Change Line) → List (Change Line × Bool)
  | [] => []
  | c :: changes =>
    if c.isEdit then (c, true) :: shown context changes
    else
      (c, 0 < left || (changes.take context).any Change.isEdit) :: shown (left - 1) changes

/-- Puts a change in front of hunks: in the first, if that begins right after it. -/
def Hunk.cons (oldStart newStart : Nat) (c : Change Line) (next : Bool) :
    List (Hunk Line) → List (Hunk Line)
  | h :: hunks =>
    if next then ⟨oldStart, newStart, c :: h.changes⟩ :: hunks
    else ⟨oldStart, newStart, [c]⟩ :: h :: hunks
  | [] => [⟨oldStart, newStart, [c]⟩]

/-- The hunks of changes of which some are shown, after some lines of the old and the new list. -/
def hunksFrom (old new : Nat) : List (Change Line × Bool) → List (Hunk Line)
  | [] => []
  | (c, isShown) :: changes =>
    let hunks := hunksFrom (old + c.old?.toList.length) (new + c.new?.toList.length) changes
    if isShown then Hunk.cons old new c ((changes.head?.map Prod.snd).getD false) hunks else hunks

/-- The hunks of some changes. -/
def hunks (changes : List (Change Line)) : List (Hunk Line) := hunksFrom 0 0 (shown 0 changes)

/-- Lines in the head of a hunk, given how many are before them and how many they are: the number
of the first, and how many unless it is one. If there are none, the line before them is named. -/
def range (start count : Nat) : String :=
  if count = 1 then s!"{start + 1}"
  else if count = 0 then s!"{start},0"
  else s!"{start + 1},{count}"

/-- The head of a hunk. -/
def Hunk.head (h : Hunk Line) : String :=
  let old := range h.oldStart (h.changes.filterMap Change.old?).length
  let new := range h.newStart (h.changes.filterMap Change.new?).length
  s!"@@ -{old} +{new} @@\n"

/-- A change in a diff: a mark and the line. -/
def Change.render : Change (List Char) → List Char
  | .keep line => ' ' :: line
  | .drop line => '-' :: line
  | .add line => '+' :: line

/-- A hunk in a diff. -/
def Hunk.render (h : Hunk (List Char)) : List Char :=
  h.head.toList ++ h.changes.flatMap Change.render

/-- The diff of two texts of a file, which is empty if they have the same lines. -/
def unified (path : String) (old new : List Char) : List Char :=
  match hunks (align (Text.lines old) (Text.lines new)) with
  | [] => []
  | all => s!"--- a/{path}\n+++ b/{path}\n".toList ++ all.flatMap Hunk.render

end GuardLint.Diff
