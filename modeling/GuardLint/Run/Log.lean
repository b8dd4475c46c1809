import GuardLint.Check.Gate

/-!
# The log of a run

What a run says about its own work to those who ask for it.
-/

namespace GuardLint

/-- How important a line of the log is. -/
inductive LogLevel where
  | debug | info
  deriving DecidableEq, Repr

/-- A line of the log, with the part of the work that it is about. -/
structure LogLine where
  level : LogLevel
  topic : String
  message : String
  deriving DecidableEq, Repr

namespace LogLine

/-- A line as it is printed. -/
def render (l : LogLine) : String :=
  let level := match l.level with
    | .debug => "DEBUG"
    | .info => "INFO"
  s!"{level} {l.topic}: {l.message}"

/-- A line about the work on a file. -/
def file (path message : String) : LogLine :=
  ⟨.debug, "precondfix.driver.runner", s!"{path}: {message}"⟩

/-- A line about fixes that were written to a file. -/
def applied (path : String) (count : Nat) : LogLine :=
  ⟨.info, "precondfix.driver.runner", s!"{path}: applied {count} fixes"⟩

/-- A line about a class that is passed over. -/
def skippedClass (className : String) : LogLine :=
  ⟨.debug, "precondfix.host.walker", s!"skipping annotated class {className}"⟩

/-- A line about a fix that is left out. -/
def skippedFix (offset : Int) : LogLine :=
  ⟨.debug, "precondfix.driver.sink", s!"skipping overlapping fix at offset {offset}"⟩

/-- A line about the verdict on a call. -/
def gate (message : String) : LogLine := ⟨.debug, "precondfix.rules.gates", message⟩

end LogLine

/-- What the log says about a verdict. -/
def Verdict.log : Verdict → List LogLine
  | .unknownMethod | .matched .. => []
  | .unboundCall method reason => [.gate s!"cannot resolve {method}: {reason.message}"]
  | .rejected owner method g reason =>
    (match reason with
      | some r => [.gate s!"gate {g.name} could not resolve {method}: {r.message}"]
      | none => []) ++
    [.gate s!"{owner}.{method} rejected by {g.name} gate"]

end GuardLint
