import GuardLint.Fix

/-!
# Diagnostics

What is said about a piece of code or about a run: a message, where it belongs, how grave it is,
and perhaps a fix.
-/

namespace GuardLint

/-- A message about a place. `phase` tells which part of the work found it. -/
structure Diagnostic where
  message : String
  code : Option String
  phase : Option String
  severity : String
  span : Span
  notes : List String
  fix : Option Fix
  deriving DecidableEq, Repr

namespace Diagnostic

/-- The place of a diagnostic for a reader: the file, and the line and column if known. -/
def place (d : Diagnostic) : String :=
  (match d.span.file with
    | some f => if f.isEmpty then "<unknown>" else f
    | none => "<unknown>") ++
  match d.span.line, d.span.column with
  | some l, some c => s!":{l}:{c}"
  | some l, none => s!":{l}"
  | none, _ => ""

/-- A diagnostic for a reader: a line, and more for its notes and its fix. -/
def render (d : Diagnostic) : String :=
  let tag := match d.code with
    | some c => if c.isEmpty then "" else s!"[{c}] "
    | none => ""
  s!"{d.place}: {d.severity}: {tag}{d.message}" ++
    String.join (d.notes.map fun n => "\n    note: " ++ n) ++
    match d.fix with
    | some f => "\n    suggested fix: " ++ f.replacement
    | none => ""

end Diagnostic

end GuardLint
