import GuardLint.Check.Rule
import GuardLint.Run.Config
import GuardLint.Run.Log
import GuardLint.Syntax.Parse

/-!
# Reports

The work on one file: it may be skipped as a whole; otherwise it is parsed, every call is checked in
the order of the text, and the fixes of the findings are applied to a copy of the text.
-/

namespace GuardLint

open Syntax

/-- Why a file is not looked at. -/
inductive SkipReason where
  | disabled | excluded | generated
  deriving DecidableEq, Repr

/-- A reason as it is written. -/
def SkipReason.text : SkipReason → String
  | .disabled => "disabled" | .excluded => "excluded" | .generated => "generated"

/-- What became of a file. The fixed text is there if anything was found. -/
structure Report where
  path : Option String
  source : List Char
  diagnostics : List Diagnostic
  fixedText : Option (List Char)
  skipped : Option SkipReason

namespace Report

/-- The findings of the rule. -/
def findings (r : Report) : List Diagnostic := r.diagnostics.filter (·.phase == some "rule")

/-- The errors, which are not findings of the rule. -/
def errors (r : Report) : List Diagnostic :=
  r.diagnostics.filter fun d => d.phase != some "rule" && d.severity == "error"

/-- Whether the fixed text is another than the text. -/
def changed (r : Report) : Bool :=
  match r.fixedText with
  | some t => t != r.source
  | none => false

/-- The path of a file as the log names it. -/
def pathName (path : Option String) : String := path.getD "None"

/-- Why a file is skipped under some settings, if it is. -/
def skipReason? (path : Option String) (config : Config) : Option SkipReason :=
  if !config.active then some .disabled
  else if Glob.matchesAny path config.exclude then some .excluded
  else if config.skipGenerated && Glob.matchesAny path config.generatedGlobs then some .generated
  else none

/-- The annotations of generated classes. -/
def generatedAnnotations : List String := ["Generated"]

/-- The diagnostic of a syntax error. -/
def syntaxDiagnostic (path : Option String) (e : SyntaxError) : Diagnostic where
  message := e.message
  code := some "syntax-error"
  phase := some "parser"
  severity := "error"
  span := { Span.unknown path with
    line := e.position?.map fun p => (p.line : Int)
    column := e.position?.map fun p => (p.column : Int) }
  notes := []
  fix := none

/-- The findings about some calls, in order, and what the log says of them. A fault ends the work
after the calls before it. -/
def checkAll {Site Arg : Type} (facts : Facts Site Arg) (severity : String) :
    List Site → List LogLine × Except Fault (List Diagnostic)
  | [] => ([], .ok [])
  | s :: sites =>
    match Gate.evaluate facts Gate.all s with
    | .error f => ([], .error f)
    | .ok v =>
      let (log, rest) := checkAll facts severity sites
      (v.log ++ log, rest.map ((Rule.findingOf facts severity s v).toList ++ ·))

/-- The report on a file that parses, and what the log says of it. -/
def ofUnit (text : List Char) (path : Option String) (config : Config) (severity : String)
    (unit : CompilationUnit) : List LogLine × Except Fault Report :=
  let skip := if config.skipGenerated then generatedAnnotations else []
  let met := CallSite.encounters unit skip
  let sites := met.filterMap Encounter.site?
  let file : SourceFile := ⟨text, path, .ofUnit unit, config.testGlobs, config.testOnly⟩
  let walked := (met.filterMap Encounter.skipped?).map LogLine.skippedClass
  let (checked, outcome) := checkAll file.facts severity sites
  match outcome with
  | .error f => (walked ++ checked, .error f)
  | .ok diagnostics =>
    let fixes := diagnostics.filterMap Diagnostic.fix
    let count := LogLine.file (pathName path)
      s!"{sites.length} call sites, {diagnostics.length} findings"
    let left := (Fix.plan fixes).2.map fun e => LogLine.skippedFix e.start
    (walked ++ checked ++ [count] ++ left,
      .ok ⟨path, text, diagnostics,
        if fixes.isEmpty then none else some (Fix.applyAll text fixes), none⟩)

/-- The report on a text, and what the log says of it. Findings are as grave as the settings say,
unless a severity is given. -/
def ofSource (text : List Char) (path : Option String) (config : Config)
    (severity : Option String) : List LogLine × Except Fault Report :=
  match skipReason? path config with
  | some reason =>
    ([.file (pathName path) s!"skipped ({reason.text})"], .ok ⟨path, text, [], none, some reason⟩)
  | none =>
    match CompilationUnit.parse text with
    | .error e =>
      ([.file (pathName path) e.message],
        .ok ⟨path, text, [syntaxDiagnostic path e], none, none⟩)
    | .ok unit => ofUnit text path config (severity.getD config.severity.text) unit

end Report

end GuardLint
