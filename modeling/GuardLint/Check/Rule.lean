import GuardLint.Check.Gate
import GuardLint.Diagnostic

/-!
# The rule

A guard whose message is built whether or not it is needed can be a statement that throws only if
the condition fails. A finding says so and proposes that statement.
-/

namespace GuardLint

namespace Rule

/-- The name of the rule. -/
def name : String := "PreferExceptionsPreconditions"

/-- How grave a finding is unless the run says otherwise. -/
def defaultSeverity : String := "suggestion"

/-- What a finding says. -/
def rationale : String :=
  "the call can be replaced with a conditional throw to avoid unnecessary string construction"

/-- A part of a decision in the text of a fix; one that is missing is named as such. -/
def shown (part : Option String) : String := part.getD "None"

/-- The statement that takes the place of a guard. -/
def replacement (d : Decision) : String :=
  let test :=
    if d.nullCheck then shown d.conditionText ++ " == null"
    else "!(" ++ shown d.conditionText ++ ")"
  "if (" ++ test ++ ") throw new " ++ shown d.exceptionType ++ "(" ++ shown d.messageText ++ ");"

/-- A call that was not matched has no fix. -/
inductive FixError where
  | unmatched
  deriving DecidableEq, Repr

/-- The reason in words. -/
def FixError.message : FixError → String
  | .unmatched => "cannot synthesize a fix for an unmatched call"

/-- The fix that a decision proposes at a span. -/
def fix (d : Decision) (span : Span) : Except FixError Fix :=
  if d.matched then .ok ⟨span, replacement d⟩ else .error .unmatched

/-- The finding that a fix makes; a link to more about the rule is a note. -/
def finding (f : Fix) (code severity : String) (link : Option String) : Diagnostic where
  message := rationale
  code := some code
  phase := some "rule"
  severity := severity
  span := f.span
  notes := match link with
    | some l => if l.isEmpty then [] else ["see " ++ l]
    | none => []
  fix := some f

variable {Site Arg : Type}

/-- The finding of a verdict on a call, if it is one. -/
def findingOf (facts : Facts Site Arg) (severity : String) (site : Site) (v : Verdict) :
    Option Diagnostic :=
  match facts.replacementSpan site with
  | .ok (some span) =>
    match fix v.decision span with
    | .ok f => some (finding f name severity none)
    | .error _ => none
  | _ => none

/-- The finding about a call, if there is one. -/
def check (facts : Facts Site Arg) (severity : String) (site : Site) :
    Except Fault (Option Diagnostic) := do
  .ok (findingOf facts severity site (← Gate.evaluate facts Gate.all site))

end Rule

end GuardLint
