/-!
# Alignments

How a list of lines becomes another: which lines are kept, which are dropped and which are added.
The longest run of lines that both lists share is kept, and what stands before it and after it is
aligned in the same way. A line that is very common in a long list is no anchor: a run is looked
for among the other lines only, and then extended over all.
-/

namespace GuardLint.Diff

/-- What becomes of a line. -/
inductive Change (Line : Type) where
  | keep (line : Line)
  | drop (line : Line)
  | add (line : Line)
  deriving DecidableEq, Repr

namespace Change

variable {Line : Type}

/-- The line that was there before. -/
def old? : Change Line → Option Line
  | .keep line | .drop line => some line
  | .add _ => none

/-- The line that is there afterwards. -/
def new? : Change Line → Option Line
  | .keep line | .add line => some line
  | .drop _ => none

/-- Whether a line does not stay as it is. -/
def isEdit : Change Line → Bool
  | .keep _ => false
  | .drop _ | .add _ => true

end Change

variable {Line : Type} [BEq Line]

/-- Whether a run may be looked for at a line: in a list of two hundred lines or more a line is
too common if it comes more often than once and one in a hundred times. -/
def isAnchor (lines : List Line) (line : Line) : Bool :=
  lines.length < 200 || lines.count line ≤ lines.length / 100 + 1

/-- A run of lines that two lists share: where it begins in each, and how long it is. -/
structure Shared where
  old : Nat
  new : Nat
  size : Nat
  deriving DecidableEq, Repr

namespace Shared

/-- For a line of the old list, how long the shared run of anchors is that ends with it at each line
of the new list, given the same of the line before. -/
def row (anchor : Line → Bool) (line : Line) (before : List Nat) (new : List Line) : List Nat :=
  let counts := anchor line
  List.zipWith (fun size other => if counts && line == other then size + 1 else 0)
    (0 :: before) new

/-- The longest of a run and those that end with the line `old` and, one after another, with the
lines from `new` on; of runs of one length the first. -/
def longest (best : Shared) (old new : Nat) : List Nat → Shared
  | [] => best
  | size :: sizes =>
    longest (if size > best.size then ⟨old + 1 - size, new + 1 - size, size⟩ else best)
      old (new + 1) sizes

/-- The longest of a run and those that end with one of the lines of `old`, the first of which has
the number `at_`. -/
def search (anchor : Line → Bool) (new : List Line) (best : Shared) (at_ : Nat)
    (before : List Nat) : List Line → Shared
  | [] => best
  | line :: old =>
    let sizes := row anchor line before new
    search anchor new (longest best at_ 0 sizes) (at_ + 1) sizes old

/-- How many lines two lists begin with in common. -/
def common : List Line → List Line → Nat
  | a :: old, b :: new => if a == b then common old new + 1 else 0
  | _, _ => 0

/-- A run with the equal lines before it and after it. -/
def extend (r : Shared) (old new : List Line) : Shared :=
  let front := common (old.take r.old).reverse (new.take r.new).reverse
  let back := common (old.drop (r.old + r.size)) (new.drop (r.new + r.size))
  ⟨r.old - front, r.new - front, front + r.size + back⟩

/-- The run of two lists that is kept. It is empty if they share none. -/
def best (anchor : Line → Bool) (old new : List Line) : Shared :=
  (search anchor new ⟨0, 0, 0⟩ 0 (new.map fun _ => 0) old).extend old new

/-- The run of two lists that is kept, if it is not empty. -/
def best? (anchor : Line → Bool) (old new : List Line) :
    Option { r : Shared // 0 < r.size ∧ r.old < old.length } :=
  let r := best anchor old new
  if h : 0 < r.size ∧ r.old < old.length then some ⟨r, h⟩ else none

end Shared

/-- The changes that make one list the other, with the runs that are looked for at anchors. Between
two runs all lines of the one are dropped before those of the other are added. -/
def alignWith (anchor : Line → Bool) (old new : List Line) : List (Change Line) :=
  match Shared.best? anchor old new with
  | none => old.map .drop ++ new.map .add
  | some ⟨r, _⟩ =>
    alignWith anchor (old.take r.old) (new.take r.new) ++
      ((old.drop r.old).take r.size).map .keep ++
      alignWith anchor (old.drop (r.old + r.size)) (new.drop (r.new + r.size))
termination_by old.length
decreasing_by all_goals simp only [List.length_take, List.length_drop]; omega

/-- The changes that make one list the other. -/
def align (old new : List Line) : List (Change Line) := alignWith (isAnchor new) old new

end GuardLint.Diff
