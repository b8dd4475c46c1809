import GuardLint.Run.Inputs
import GuardLint.Run.Report

/-!
# Surveys

The work on all files of a run. Every file is looked at before any is written, so a file that is
named twice is reported twice. What cannot be read is left out and told first.
-/

namespace GuardLint

/-- What was found in the files of a run. -/
structure Survey where
  unreadable : List Problem
  reports : List (Path × Report)

/-- A problem as a diagnostic of some part of the work. -/
def Problem.diagnostic (p : Problem) (phase : String) : Diagnostic where
  message := p.message
  code := some p.code
  phase := some phase
  severity := "error"
  span := .unknown p.path
  notes := []
  fix := none

namespace Survey

/-- A survey of no files. -/
def empty : Survey := ⟨[], []⟩

/-- A survey with one more file in front. -/
def cons (p : Path) (result : Except Problem Report) (s : Survey) : Survey :=
  match result with
  | .ok report => { s with reports := (p, report) :: s.reports }
  | .error problem => { s with unreadable := problem :: s.unreadable }

/-- The report on a file, and what the log says of it. -/
def look (w : Workspace) (config : Config) (p : Path) :
    List LogLine × Except Fault (Except Problem Report) :=
  match w.source p with
  | .error problem => ([], .ok (.error problem))
  | .ok text =>
    let (log, report) := Report.ofSource text (some p.text) config none
    (log, report.map .ok)

/-- The survey of some files, and what the log says of them. A fault ends the work after the files
before it. -/
def ofFiles (w : Workspace) (config : Config) :
    List Path → List LogLine × Except Fault Survey
  | [] => ([], .ok empty)
  | p :: paths =>
    match look w config p with
    | (log, .error fault) => (log, .error fault)
    | (log, .ok result) =>
      let (others, survey) := ofFiles w config paths
      (log ++ others, survey.map (cons p result))

/-- Everything to be told about the files. -/
def diagnostics (s : Survey) : List Diagnostic :=
  s.unreadable.map (·.diagnostic "input") ++ s.reports.flatMap (·.2.diagnostics)

/-- Whether something went wrong, other than that the rule found something. -/
def hasErrors (s : Survey) : Bool :=
  s.diagnostics.any fun d => d.phase != some "rule" && d.severity == "error"

/-- Whether the rule found something. -/
def hasFindings (s : Survey) : Bool := s.reports.any fun r => !r.2.findings.isEmpty

/-- The reports that change their file. -/
def changed (s : Survey) : List (Path × Report) := s.reports.filter (·.2.changed)

/-- The status of a run: two if something went wrong, one if there are findings that stay, and zero
otherwise. -/
def status (s : Survey) (applied : Bool) : Nat :=
  if s.hasErrors then 2 else if !applied && s.hasFindings then 1 else 0

end Survey

end GuardLint
