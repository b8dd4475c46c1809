import GuardLint.Command.Usage
import GuardLint.Run.Print

/-!
# Sessions

A whole run, from the words of a command line to what is printed, the status, and the files that are
written. A run that does not get to its files writes none, and one that is not asked to apply its
fixes does not either.
-/

namespace GuardLint

/-- What a run does. -/
structure Outcome where
  stdout : String
  stderr : String
  status : Except Abort Nat
  written : List (Path × List UInt8)

namespace Outcome

/-- The outcome of a command line that asks for no run. -/
def ofStop : Command.Stop → Outcome
  | .help => ⟨Command.help, "", .ok 0, []⟩
  | .misuse m => ⟨"", Command.usage ++ s!"precondfix: error: {m.message}\n", .ok 2, []⟩

/-- The part of the work that a problem of the setup belongs to. -/
def phaseOf (p : Problem) : String := if p.code.startsWith "config" then "config" else "input"

/-- The outcome of a run that does not get to its files. -/
def ofFailure (o : Command.Options) : SetupFailure → Outcome
  | .abort a => ⟨"", "", .error a, []⟩
  | .problem p =>
    let d := p.diagnostic (phaseOf p)
    if o.json then ⟨unlines [Json.write (failureObject d)], "", .ok 2, []⟩
    else ⟨"", unlines [d.render], .ok 2, []⟩

/-- The files that a run writes: every file that it changes, if it is asked to. -/
def writes (o : Command.Options) (s : Survey) : List (Path × List UInt8) :=
  if o.apply then s.changed.map fun r => (r.1, Text.Utf8.encode (r.2.fixedText.getD [])) else []

/-- What the log says of the files that a run writes. -/
def writeLog (o : Command.Options) (s : Survey) : List LogLine :=
  if o.apply then s.changed.map fun r => .applied r.1.text r.2.findings.length else []

/-- The log as it is printed, if it is asked for. -/
def logText (o : Command.Options) (log : List LogLine) : String :=
  if o.verbose then unlines (log.map LogLine.render) else ""

/-- The outcome of a run that has looked at its files. -/
def ofSurvey (o : Command.Options) (log : List LogLine) (s : Survey) : Outcome :=
  let written := writes o s
  let log := logText o (log ++ writeLog o s)
  let status := s.status o.apply
  if o.json then
    ⟨unlines [Json.write (s.object o written.length)], log, .ok status, written⟩
  else
    let told := s.diagnostics.map Diagnostic.render ++ rewrote written.length
    ⟨if o.diff then String.join (s.diffs.map Prod.snd) else "", log ++ unlines told, .ok status,
      written⟩

/-- The outcome of a run with some options. -/
def ofOptions (w : Workspace) (o : Command.Options) : Outcome :=
  match setup w o with
  | .error e => ofFailure o e
  | .ok (config, files) =>
    match Survey.ofFiles w config files with
    | (log, .error fault) => ⟨"", logText o log, .error (.fault fault), []⟩
    | (log, .ok survey) => ofSurvey o log survey

/-- The files after a run. -/
def after (r : Outcome) (w : Workspace) : Workspace :=
  r.written.foldl (fun w f => w.write f.1 f.2) w

end Outcome

/-- What a run with some words on its command line does. -/
def Workspace.run (w : Workspace) (words : List String) : Outcome :=
  match Command.Options.ofTexts words with
  | .error stop => Outcome.ofStop stop
  | .ok o => Outcome.ofOptions w o

end GuardLint
