import GuardLint.Data.Value
import GuardLint.Run.Problem
import GuardLint.Scope.UnitIndex
import GuardLint.Semantics.TestCode
import GuardLint.Text.Order

/-!
# Configuration

The settings of a run. They are read from an object in which every setting may be left out; a name
that is no setting is an error, and so is a value of the wrong kind. Of several errors the first is
reported in a fixed order: names, then switches, then patterns, then the severity.
-/

namespace GuardLint

/-- How grave a finding is; `off` means that nothing is checked. -/
inductive Severity where
  | off | suggestion | warning | error
  deriving DecidableEq, Repr

namespace Severity

/-- Every severity. -/
def all : List Severity := [.off, .suggestion, .warning, .error]

/-- A severity as it is written. -/
def text : Severity → String
  | .off => "off" | .suggestion => "suggestion" | .warning => "warning" | .error => "error"

/-- The severity that a text names. -/
def ofText? (text : String) : Option Severity := all.find? (·.text == text)

end Severity

/-- The settings of a run. -/
structure Config where
  enabled : Bool
  severity : Severity
  testGlobs : List String
  generatedGlobs : List String
  skipGenerated : Bool
  testOnly : Bool
  exclude : List String
  deriving DecidableEq, Repr

/-- What is wrong with a configuration. -/
inductive ConfigError where
  | notObject
  | unknownKeys (keys : List String)
  | notBoolean (key : String)
  | notGlobs (key : String)
  | badSeverity
  deriving DecidableEq, Repr

namespace ConfigError

/-- The code of an error. -/
def code : ConfigError → String
  | .unknownKeys _ => "config-unknown-key"
  | _ => "config-invalid"

/-- An error in words. -/
def message : ConfigError → String
  | .notObject => "configuration must be a JSON object"
  | .unknownKeys keys => "unknown configuration keys: " ++ ", ".intercalate keys
  | .notBoolean key => s!"'{key}' must be a boolean"
  | .notGlobs key => s!"'{key}' must be a list of glob strings"
  | .badSeverity =>
    "'severity' must be one of " ++ ", ".intercalate (Severity.all.map Severity.text)

/-- An error in the configuration that comes from `source`. -/
def problem (e : ConfigError) (source : String) : Problem := ⟨e.code, e.message, some source⟩

end ConfigError

namespace Config

/-- The settings that hold unless others are given. -/
def default : Config where
  enabled := true
  severity := .suggestion
  testGlobs := TestCode.defaultGlobs
  generatedGlobs := ["**/generated/**", "**/build/generated*/**"]
  skipGenerated := true
  testOnly := false
  exclude := []

/-- Whether a run checks anything at all. -/
def active (c : Config) : Bool := c.enabled && c.severity != .off

/-- The names of the settings. -/
def keys : List String :=
  ["enabled", "severity", "test_globs", "generated_globs", "skip_generated", "test_only", "exclude"]

/-- The settings by name. -/
def fields (c : Config) : List (String × Value) :=
  [("enabled", .bool c.enabled), ("severity", .string c.severity.text),
   ("test_globs", .ofStrings c.testGlobs), ("generated_globs", .ofStrings c.generatedGlobs),
   ("skip_generated", .bool c.skipGenerated), ("test_only", .bool c.testOnly),
   ("exclude", .ofStrings c.exclude)]

/-- A switch of an object, or its default. -/
def switch (fields : List (String × Value)) (key : String) (default : Bool) :
    Except ConfigError Bool :=
  match fields.lookup key with
  | none => .ok default
  | some (.bool b) => .ok b
  | some _ => .error (.notBoolean key)

/-- The patterns of an object, or their default. -/
def globs (fields : List (String × Value)) (key : String) (default : List String) :
    Except ConfigError (List String) :=
  match fields.lookup key with
  | none => .ok default
  | some v =>
    match v.strings? with
    | some texts => .ok texts
    | none => .error (.notGlobs key)

/-- The severity of an object, or its default. -/
def severityOf (fields : List (String × Value)) (default : Severity) :
    Except ConfigError Severity :=
  match fields.lookup "severity" with
  | none => .ok default
  | some v =>
    match v.string?.bind Severity.ofText? with
    | some s => .ok s
    | none => .error .badSeverity

/-- The settings that the fields of an object give, and the default for the others. -/
def ofFields (fields : List (String × Value)) : Except ConfigError Config := do
  let unknown := (fields.map Prod.fst).filter fun k => !keys.contains k
  if !unknown.isEmpty then throw (.unknownKeys (Text.sortedSet unknown))
  let enabled ← switch fields "enabled" default.enabled
  let skipGenerated ← switch fields "skip_generated" default.skipGenerated
  let testOnly ← switch fields "test_only" default.testOnly
  let testGlobs ← globs fields "test_globs" default.testGlobs
  let generatedGlobs ← globs fields "generated_globs" default.generatedGlobs
  let exclude ← globs fields "exclude" default.exclude
  let severity ← severityOf fields default.severity
  return { enabled, severity, testGlobs, generatedGlobs, skipGenerated, testOnly, exclude }

/-- The settings that a value gives. -/
def ofValue : Value → Except ConfigError Config
  | .object fields => ofFields fields
  | _ => .error .notObject

/-- Settings with others in place of some; one that is `null` is left as it is. -/
def override (c : Config) (changes : List (String × Value)) : Except ConfigError Config :=
  let given := changes.filter fun
    | (_, .null) => false
    | _ => true
  if given.isEmpty then .ok c
  else ofFields (given.foldl (fun table f => setValue table f.1 f.2) c.fields)

end Config

end GuardLint
