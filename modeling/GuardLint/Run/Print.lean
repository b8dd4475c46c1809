import GuardLint.Data.Json.Write
import GuardLint.Data.Table
import GuardLint.Diff.Unified
import GuardLint.Run.Survey

/-!
# What a run prints

The results of a run for a reader or for another program. A reader gets the diffs on the one stream
and the diagnostics on the other; a program gets one object on one line.
-/

namespace GuardLint

/-- A number as a value. -/
def Value.ofInt (n : Int) : Value := .number (toString n)

/-- A value, or `null` if there is none. -/
def Value.ofOption {α : Type} (f : α → Value) : Option α → Value
  | some a => f a
  | none => .null

/-- A fix as an object. -/
def Fix.toValue (f : Fix) : Value :=
  .object [("start", .ofOption .ofInt f.span.start), ("end", .ofOption .ofInt f.span.stop),
    ("replacement", .string f.replacement)]

/-- A diagnostic as an object. -/
def Diagnostic.toValue (d : Diagnostic) : Value :=
  .object [("phase", .ofOption .string d.phase), ("code", .ofOption .string d.code),
    ("message", .string d.message), ("severity", .string d.severity),
    ("file", .ofOption .string d.span.file), ("line", .ofOption .ofInt d.span.line),
    ("column", .ofOption .ofInt d.span.column), ("notes", .ofStrings d.notes),
    ("fix", .ofOption Fix.toValue d.fix)]

/-- Texts as lines. -/
def unlines (texts : List String) : String := String.join (texts.map (· ++ "\n"))

/-- The diff that a report makes. -/
def Report.diff (path : Path) (r : Report) : String :=
  String.ofList (Diff.unified path.text r.source (r.fixedText.getD []))

/-- The diffs of a survey by path; a path that comes again has the diff of the last report. -/
def Survey.diffs (s : Survey) : List (String × String) :=
  s.changed.foldl (fun table r => setValue table r.1.text (r.2.diff r.1)) []

/-- The object that tells of a run that did not get to its files. -/
def failureObject (d : Diagnostic) : Value :=
  .object [("exit_code", .ofInt 2), ("diagnostics", .array [d.toValue])]

/-- The object that tells of a run. -/
def Survey.object (s : Survey) (o : Command.Options) (applied : Nat) : Value :=
  .object ([("exit_code", .ofInt (s.status o.apply)),
    ("diagnostics", .array (s.diagnostics.map Diagnostic.toValue)),
    ("applied_files", .ofInt applied)] ++
    if o.diff then [("diffs", .object (s.diffs.map fun d => (d.1, .string d.2)))] else [])

/-- The note about files that were written. -/
def rewrote (applied : Nat) : List String :=
  if applied = 0 then [] else [s!"precondfix: rewrote {applied} file(s)"]

end GuardLint
