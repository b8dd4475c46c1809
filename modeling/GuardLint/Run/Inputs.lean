import GuardLint.Command.Options
import GuardLint.Data.Json.Read
import GuardLint.Files.Entry
import GuardLint.Run.Config
import GuardLint.Semantics.Failure
import GuardLint.Text.Lines
import GuardLint.Text.Quoted
import GuardLint.Text.Utf8

/-!
# What a run reads

The settings of a run and the files that it looks at. Settings come from the file that the command
line names, which has to be there, or else from a file of a fixed name in the working directory, if
it is there. A directory stands for the source files in it and below it, in the order of their
names.
-/

namespace GuardLint

/-- What ends a run before it comes to a status. -/
inductive Abort where
  | undecodableConfig (error : Text.Utf8Error)
  | longNumber (error : Json.ReadError)
  | fault (fault : Fault)
  deriving DecidableEq, Repr

/-- What ends a run, in words. -/
def Abort.message : Abort → String
  | .undecodableConfig e => e.message
  | .longNumber e => e.message
  | .fault .loop => "the type of a variable depends on itself"
  | .fault .noShape => "no shape is known for a call"
  | .fault .noArgument => "a call lacks an argument"

/-- Why a run does not get to its files: a problem that it reports, or one that ends it. -/
inductive SetupFailure where
  | problem (problem : Problem)
  | abort (abort : Abort)
  deriving DecidableEq, Repr

/-- The text of some bytes, with every line ended by a line feed. -/
def readText (bytes : List UInt8) : Except Text.Utf8Error (List Char) :=
  (Text.Utf8.decode bytes).map Text.unifyNewlines

namespace Config

/-- The name of the file that is looked for when no other is named. -/
def fileName : String := "precondfix.json"

/-- The settings in a text, which comes from `source`. -/
def ofText (source : String) (text : List Char) : Except SetupFailure Config :=
  match Json.read text with
  | .error (.malformed defect place) =>
    let reason := Json.ReadError.message (.malformed defect place)
    .error (.problem ⟨"config-invalid", "malformed JSON: " ++ reason, some source⟩)
  | .error e => .error (.abort (.longNumber e))
  | .ok value =>
    match ofValue value with
    | .ok config => .ok config
    | .error e => .error (.problem (e.problem source))

/-- The settings of a run. -/
def load (w : Workspace) (named : Option Path) : Except SetupFailure Config :=
  let source := (named.getD (w.home.append [fileName])).text
  match w.entry? (named.getD ⟨"", [fileName]⟩) with
  | some (.file bytes) =>
    match readText bytes with
    | .ok text => ofText source text
    | .error e => .error (.abort (.undecodableConfig e))
  | some (.directory _) =>
    let reason := s!"[Errno 21] Is a directory: {Text.quoted source}"
    .error (.problem ⟨"config-unreadable", reason, some source⟩)
  | none =>
    if named.isSome then
      .error (.problem ⟨"config-not-found", "config file not found: " ++ source, some source⟩)
    else .ok default

/-- The settings that a command line puts in place of others. -/
def overrides (o : Command.Options) : List (String × Value) :=
  (match o.severity with
    | some s => [("severity", .string s.text)]
    | none => []) ++
  (if o.testOnly then [("test_only", .bool true)] else []) ++
  (if o.noSkipGenerated then [("skip_generated", .bool false)] else [])

end Config

namespace Workspace

/-- Whether a file in a directory is a source file. -/
def isSourceName (name : String) : Bool := ".java".toList.isSuffixOf name.toList

/-- The files that some paths stand for, in order. -/
def inputs (w : Workspace) : List Path → Except Problem (List Path)
  | [] => .ok []
  | p :: paths =>
    match w.entry? p with
    | some (.directory entries) => do
      let files := (sortNames (Entry.filesAmong isSourceName entries)).map p.append
      return files ++ (← w.inputs paths)
    | some (.file _) => do return p :: (← w.inputs paths)
    | none =>
      .error ⟨"input-not-found", "no such file or directory: " ++ p.text, some p.text⟩

/-- The text of a file that is looked at. -/
def source (w : Workspace) (p : Path) : Except Problem (List Char) :=
  let unreadable (reason : String) : Except Problem (List Char) :=
    .error ⟨"input-unreadable", s!"cannot read {p.text}: {reason}", some p.text⟩
  match w.entry? p with
  | some (.file bytes) =>
    match readText bytes with
    | .ok text => .ok text
    | .error e => unreadable e.message
  | some (.directory _) => unreadable s!"[Errno 21] Is a directory: {Text.quoted p.text}"
  | none => unreadable s!"[Errno 2] No such file or directory: {Text.quoted p.text}"

end Workspace

/-- The settings and the files of a run. -/
def setup (w : Workspace) (o : Command.Options) : Except SetupFailure (Config × List Path) :=
  match Config.load w o.config with
  | .error e => .error e
  | .ok config =>
    match config.override (Config.overrides o) with
    | .error e => .error (.problem (e.problem "<overrides>"))
    | .ok config =>
      match w.inputs o.paths with
      | .error e => .error (.problem e)
      | .ok files => .ok (config, files)

end GuardLint
