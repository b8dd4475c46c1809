import GuardLint.Span

/-!
# Fixes

A fix replaces a piece of a text. Several fixes are applied to one text from its end to its start,
so that the offsets of those still to come are those of the text as it was; a fix that overlaps one
already chosen is left out.
-/

namespace GuardLint

/-- A piece of a text and what to put there. -/
structure Fix where
  span : Span
  replacement : String
  deriving DecidableEq, Repr

/-- A fix whose offsets are known. -/
structure Edit where
  start : Int
  stop : Int
  replacement : List Char
  deriving DecidableEq, Repr

/-- A fix as an edit, if its offsets are known. -/
def Fix.edit? (f : Fix) : Option Edit :=
  match f.span.start, f.span.stop with
  | some start, some stop => some ⟨start, stop, f.replacement.toList⟩
  | _, _ => none

namespace Edit

/-- Whether two edits share a character, or one lies inside the other. -/
def overlaps (e f : Edit) : Bool := e.start < f.stop && f.start < e.stop

/-- Whether an edit comes before another: it starts later, or it starts with it and stops later. -/
def before (e f : Edit) : Bool := f.start < e.start || (f.start = e.start && f.stop < e.stop)

/-- Puts an edit behind all that do not come after it. -/
def insert (e : Edit) : List Edit → List Edit
  | [] => [e]
  | f :: fs => if e.before f then e :: f :: fs else f :: insert e fs

/-- Edits in the order in which they are applied, the last in the text first. Those that cover the
same piece stay in order. -/
def sorted (edits : List Edit) : List Edit := edits.foldl (fun sorted e => insert e sorted) []

/-- The edits to apply and those to leave out, given those chosen already. -/
def choose (chosen : List Edit) : List Edit → List Edit × List Edit
  | [] => ([], [])
  | e :: es =>
    if chosen.any e.overlaps then
      let (taken, left) := choose chosen es
      (taken, e :: left)
    else
      let (taken, left) := choose (e :: chosen) es
      (e :: taken, left)

/-- An offset as a place in a text of some length. An offset past the end is the end, and one below
zero counts from the end. -/
def clamp (length : Nat) (offset : Int) : Nat :=
  if offset < 0 then (offset + length).toNat else min offset.toNat length

/-- The text with the piece of an edit replaced. -/
def splice (text : List Char) (e : Edit) : List Char :=
  text.take (clamp text.length e.start) ++ e.replacement ++ text.drop (clamp text.length e.stop)

end Edit

namespace Fix

/-- The edits that some fixes make, and those that they leave out, each in the order of
application. -/
def plan (fixes : List Fix) : List Edit × List Edit :=
  Edit.choose [] (Edit.sorted (fixes.filterMap Fix.edit?))

/-- The text with fixes applied, as far as they do not overlap. -/
def applyAll (text : List Char) (fixes : List Fix) : List Char :=
  (plan fixes).1.foldl Edit.splice text

end Fix

end GuardLint
