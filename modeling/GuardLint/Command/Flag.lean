/-!
# Options of the command line

The options, their names and whether a value belongs to them. A short name is one hyphen and a
letter, and no option with a short name takes a value.
-/

namespace GuardLint.Command

/-- An option. -/
inductive Flag where
  | help
  | config
  | apply
  | diff
  | json
  | severity
  | testOnly
  | noSkipGenerated
  | verbose
  deriving DecidableEq, Repr

namespace Flag

/-- Every option. -/
def all : List Flag :=
  [.help, .config, .apply, .diff, .json, .severity, .testOnly, .noSkipGenerated, .verbose]

/-- The names of an option, the short one first. -/
def names : Flag → List String
  | .help => ["-h", "--help"]
  | .config => ["--config"]
  | .apply => ["--apply"]
  | .diff => ["--diff"]
  | .json => ["--json"]
  | .severity => ["--severity"]
  | .testOnly => ["--test-only"]
  | .noSkipGenerated => ["--no-skip-generated"]
  | .verbose => ["-v", "--verbose"]

/-- Whether a value belongs to an option. -/
def takesValue : Flag → Bool
  | .config | .severity => true
  | _ => false

/-- An option as errors name it. -/
def label (f : Flag) : String := "/".intercalate f.names

/-- Every name with its option. -/
def table : List (String × Flag) := all.flatMap fun f => f.names.map (·, f)

/-- The option of a name. -/
def named? (name : String) : Option Flag := table.lookup name

end Flag

end GuardLint.Command
